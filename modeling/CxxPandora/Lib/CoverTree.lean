import Mathlib.Algebra.BigOperators.Intervals
import Mathlib.Algebra.Order.Group.Defs
import Mathlib.Algebra.Order.BigOperators.Group.Finset
import Mathlib.Data.Int.ConditionallyCompleteOrder
import Mathlib.Data.Int.Interval
import Mathlib.Data.Multiset.Count
import Mathlib.Order.Interval.Finset.Nat
import Mathlib.Tactic.Ring

/-!
# A counting segment tree without push-down

The points `X l < ... < X (r + 1)` cut a line into elementary intervals. A node of the tree stands
for a range of them; it counts the intervals that cover its range and not that of a node above it,
and stores the length that the intervals counted in its subtree cover. An interval is added or
removed without anything pushed down, and `CoverTree.Counts.update` says that the tree then counts
what it should. The removal is the update with `-1`: it changes the nodes that the addition changed.
-/

namespace CxxPandora.Lib

/-! ## Covered length -/

section Cover

variable {α : Type*} [LinearOrder α] (X : ℕ → α) (l r : ℕ) (I : α × α)

/-- The interval `I` covers the elementary intervals `l` to `r`. -/
def Covers : Prop := I.1 ≤ X l ∧ X (r + 1) ≤ I.2

/-- The interval `I` meets none of the elementary intervals `l` to `r`. -/
def Misses : Prop := X (r + 1) ≤ I.1 ∨ I.2 ≤ X l

/-- The ends of `I` cut none of the elementary intervals `l` to `r`. -/
def Aligned : Prop := ∀ i, l ≤ i → i ≤ r → Misses X i i I ∨ Covers X i i I

instance : Decidable (Covers X l r I) := inferInstanceAs (Decidable (_ ∧ _))

instance : Decidable (Misses X l r I) := inferInstanceAs (Decidable (_ ∨ _))

open scoped Classical in
/-- The length of the elementary intervals `l` to `r` that the intervals `S` cover. -/
noncomputable def coveredLength [AddCommGroup α] (S : Multiset (α × α)) : α :=
  ∑ i ∈ Finset.Ico l (r + 1), if ∃ I ∈ S, Covers X i i I then X (i + 1) - X i else 0

variable {X I l r}

/-- The ends of a part of a range are between those of the range. -/
theorem ends_mono (hX : StrictMonoOn X (Set.Icc l (r + 1))) {i j : ℕ} (hli : l ≤ i) (hij : i ≤ j)
    (hjr : j ≤ r) : X l ≤ X i ∧ X (j + 1) ≤ X (r + 1) :=
  ⟨hX.monotoneOn ⟨le_rfl, by omega⟩ ⟨hli, by omega⟩ hli,
    hX.monotoneOn ⟨by omega, by omega⟩ ⟨by omega, le_rfl⟩ (by omega)⟩

/-- An interval covers the parts of what it covers. -/
theorem Covers.mono (hX : StrictMonoOn X (Set.Icc l (r + 1))) (h : Covers X l r I) {i j : ℕ}
    (hli : l ≤ i) (hij : i ≤ j) (hjr : j ≤ r) : Covers X i j I := by
  obtain ⟨hi, hj⟩ := ends_mono hX hli hij hjr
  exact ⟨hi.trans' h.1, hj.trans h.2⟩

/-- An interval misses the parts of what it misses. -/
theorem Misses.mono (hX : StrictMonoOn X (Set.Icc l (r + 1))) (h : Misses X l r I) {i j : ℕ}
    (hli : l ≤ i) (hij : i ≤ j) (hjr : j ≤ r) : Misses X i j I := by
  obtain ⟨hi, hj⟩ := ends_mono hX hli hij hjr
  exact h.imp (fun h => hj.trans h) (fun h => h.trans hi)

/-- An interval does not cover what it misses. -/
theorem Misses.not_covers (hX : StrictMonoOn X (Set.Icc l (r + 1))) (hlr : l ≤ r)
    (h : Misses X l r I) : ¬ Covers X l r I := by
  have hlt : X l < X (r + 1) := hX ⟨le_rfl, by omega⟩ ⟨by omega, le_rfl⟩ (by omega)
  rintro ⟨hl, hr⟩
  obtain h | h := h
  · exact absurd (h.trans hl) (not_le_of_gt hlt)
  · exact absurd (hr.trans h) (not_le_of_gt hlt)

/-- An interval whose ends cut nothing between `l` and `r` cuts nothing between `i` and `j`. -/
theorem Aligned.mono (h : Aligned X l r I) {i j : ℕ} (hli : l ≤ i) (hjr : j ≤ r) :
    Aligned X i j I := fun k hik hkj => h k (hli.trans hik) (hkj.trans hjr)

/-- An interval whose ends are two of the points cuts nothing. -/
theorem aligned_of_points (hX : StrictMonoOn X (Set.Icc l (r + 1))) {j k : ℕ}
    (hj : j ∈ Set.Icc l (r + 1)) (hk : k ∈ Set.Icc l (r + 1)) : Aligned X l r (X j, X k) := by
  intro i hli hir
  have hi : i ∈ Set.Icc l (r + 1) := ⟨hli, by omega⟩
  have hi' : i + 1 ∈ Set.Icc l (r + 1) := ⟨by omega, by omega⟩
  by_cases hji : j ≤ i
  · by_cases hik : i + 1 ≤ k
    · exact .inr ⟨hX.monotoneOn hj hi hji, hX.monotoneOn hi' hk hik⟩
    · exact .inl (.inr (hX.monotoneOn hk hi (by omega)))
  · exact .inl (.inl (hX.monotoneOn hi' hj (by omega)))

variable [AddCommGroup α] {S : Multiset (α × α)}

/-- The covered length of two adjacent ranges. -/
theorem coveredLength_split {m : ℕ} (hlm : l ≤ m) (hmr : m + 1 ≤ r) :
    coveredLength X l m S + coveredLength X (m + 1) r S = coveredLength X l r S :=
  Finset.sum_Ico_consecutive _ (by omega) (by omega)

open scoped Classical in
/-- The covered length of one elementary interval. -/
theorem coveredLength_self (i : ℕ) :
    coveredLength X i i S = if ∃ I ∈ S, Covers X i i I then X (i + 1) - X i else 0 := by
  rw [coveredLength, Nat.Ico_succ_singleton, Finset.sum_singleton]

/-- The covered length of a range that one interval covers is all of it. -/
theorem coveredLength_of_covers (hX : StrictMonoOn X (Set.Icc l (r + 1))) (hlr : l ≤ r)
    (h : ∃ I ∈ S, Covers X l r I) : coveredLength X l r S = X (r + 1) - X l := by
  obtain ⟨I, hI, hcovers⟩ := h
  have hall : coveredLength X l r S = ∑ i ∈ Finset.Ico l (r + 1), (X (i + 1) - X i) := by
    refine Finset.sum_congr rfl fun i hi => if_pos ⟨I, hI, ?_⟩
    rw [Finset.mem_Ico] at hi
    exact hcovers.mono hX hi.1 le_rfl (by omega)
  -- The differences telescope.
  rw [hall, Finset.sum_Ico_eq_sum_range]
  have hlen : l + (r + 1 - l) = r + 1 := by omega
  have htele := Finset.sum_range_sub (fun i => X (l + i)) (r + 1 - l)
  rw [hlen, Nat.add_zero] at htele
  exact htele

open scoped Classical in
/-- The covered length depends on which elementary intervals are covered. -/
theorem coveredLength_congr {T : Multiset (α × α)}
    (h : ∀ i, l ≤ i → i ≤ r → ((∃ I ∈ S, Covers X i i I) ↔ ∃ I ∈ T, Covers X i i I)) :
    coveredLength X l r S = coveredLength X l r T := by
  refine Finset.sum_congr rfl fun i hi => ?_
  rw [Finset.mem_Ico] at hi
  exact if_congr (h i hi.1 (by omega)) rfl rfl

/-- An interval that misses the range leaves its covered length alone. -/
theorem coveredLength_cons_of_misses (hX : StrictMonoOn X (Set.Icc l (r + 1)))
    (h : Misses X l r I) : coveredLength X l r (I ::ₘ S) = coveredLength X l r S := by
  refine coveredLength_congr fun i hli hir => ?_
  have hmiss : Misses X i i I := h.mono hX hli le_rfl hir
  have hnot : ¬ Covers X i i I :=
    hmiss.not_covers (hX.mono (Set.Icc_subset_Icc hli (by omega))) le_rfl
  simp only [Multiset.mem_cons, exists_eq_or_imp, hnot, false_or]

/-- The covered length of a range is not negative, and at most its length. -/
theorem coveredLength_bounds [IsOrderedAddMonoid α] (hX : StrictMonoOn X (Set.Icc l (r + 1)))
    (hlr : l ≤ r) : 0 ≤ coveredLength X l r S ∧ coveredLength X l r S ≤ X (r + 1) - X l := by
  have hpos : ∀ i ∈ Finset.Ico l (r + 1), 0 ≤ X (i + 1) - X i := by
    intro i hi
    rw [Finset.mem_Ico] at hi
    exact sub_nonneg.mpr (hX.monotoneOn ⟨hi.1, by omega⟩ ⟨by omega, by omega⟩ (by omega))
  constructor
  · refine Finset.sum_nonneg fun i hi => ?_
    split_ifs
    · exact hpos i hi
    · exact le_rfl
  · -- The whole length is the covered length with one more interval.
    have hall : coveredLength X l r ((X l, X (r + 1)) ::ₘ S) = X (r + 1) - X l :=
      coveredLength_of_covers hX hlr ⟨_, Multiset.mem_cons_self _ _, le_rfl, le_rfl⟩
    rw [← hall]
    refine Finset.sum_le_sum fun i hi => ?_
    split_ifs with hS hS'
    · exact le_rfl
    · obtain ⟨J, hJ, hcovers⟩ := hS
      exact absurd ⟨J, Multiset.mem_cons_of_mem hJ, hcovers⟩ hS'
    · exact hpos i hi
    · exact le_rfl

end Cover

section Integer

variable {X : ℕ → ℤ} {l r : ℕ} {S : Multiset (ℤ × ℤ)}

/-- An integer point of an elementary interval that nothing cuts is in an interval of `S` when the
elementary interval is covered. -/
theorem exists_mem_iff_covers {i : ℕ} (hS : ∀ I ∈ S, Aligned X i i I) {x : ℤ} (hx : X i ≤ x)
    (hx' : x < X (i + 1)) : (∃ I ∈ S, I.1 ≤ x ∧ x < I.2) ↔ ∃ I ∈ S, Covers X i i I := by
  -- An interval with a point of the elementary interval does not miss it.
  constructor
  · rintro ⟨I, hI, hl, hr⟩
    refine ⟨I, hI, (hS I hI i le_rfl le_rfl).resolve_left fun hmiss => ?_⟩
    obtain hmiss | hmiss := hmiss
    · omega
    · omega
  · rintro ⟨I, hI, hl, hr⟩
    exact ⟨I, hI, by omega, by omega⟩

open scoped Classical in
/-- The covered length is the number of integer points that are covered. -/
theorem coveredLength_eq_card (hX : StrictMonoOn X (Set.Icc l (r + 1))) (hlr : l ≤ r)
    (hS : ∀ I ∈ S, Aligned X l r I) :
    coveredLength X l r S =
      ((Finset.Ico (X l) (X (r + 1))).filter fun x => ∃ I ∈ S, I.1 ≤ x ∧ x < I.2).card := by
  have hone : ∀ i, l ≤ i → i ≤ r → coveredLength X i i S =
      ((Finset.Ico (X i) (X (i + 1))).filter fun x => ∃ I ∈ S, I.1 ≤ x ∧ x < I.2).card := by
    intro i hli hir
    have hlt : X i < X (i + 1) := hX ⟨hli, by omega⟩ ⟨by omega, by omega⟩ (Nat.lt_succ_self i)
    have hiff : ∀ x ∈ Finset.Ico (X i) (X (i + 1)), (∃ I ∈ S, I.1 ≤ x ∧ x < I.2) ↔
        ∃ I ∈ S, Covers X i i I := by
      intro x hx
      rw [Finset.mem_Ico] at hx
      exact exists_mem_iff_covers (fun I hI => (hS I hI).mono hli hir) hx.1 hx.2
    rw [coveredLength_self, Finset.filter_congr hiff]
    by_cases hcovered : ∃ I ∈ S, Covers X i i I
    · rw [if_pos hcovered, Finset.filter_true_of_mem fun _ _ => hcovered, Int.card_Ico]
      omega
    · rw [if_neg hcovered, Finset.filter_false_of_mem fun _ _ => hcovered, Finset.card_empty]
      rfl
  induction r, hlr using Nat.le_induction with
  | base => exact hone l le_rfl le_rfl
  | succ r hlr ih =>
    have hleft : X l ≤ X (r + 1) :=
      hX.monotoneOn ⟨le_rfl, by omega⟩ ⟨by omega, by omega⟩ (by omega)
    have hright : X (r + 1) ≤ X (r + 1 + 1) :=
      hX.monotoneOn ⟨by omega, by omega⟩ ⟨by omega, le_rfl⟩ (by omega)
    rw [← coveredLength_split hlr le_rfl, ih (hX.mono (Set.Icc_subset_Icc_right (by omega)))
      (fun I hI => (hS I hI).mono le_rfl (by omega)) fun i hli hir => hone i hli (by omega),
      hone (r + 1) (by omega) le_rfl, ← Finset.Ico_union_Ico_eq_Ico hleft hright,
      Finset.filter_union, Finset.card_union_of_disjoint, Nat.cast_add]
    exact Finset.disjoint_filter_filter (Finset.Ico_disjoint_Ico_consecutive _ _ _)

end Integer

/-! ## Changes of a multiset -/

section Change

variable {α : Type*}

/-- The intervals `S'` are the intervals `S` after the update of `I` with `v`. -/
def Change (v : ℤ) (I : α) (S S' : Multiset α) : Prop :=
  v = 1 ∧ S' = I ::ₘ S ∨ v = -1 ∧ S = I ::ₘ S'

variable {I : α} {v : ℤ} {S S' : Multiset α}

/-- The change of a count, when the property holds of `I`. -/
theorem Change.countP_of_pos {p : α → Prop} [DecidablePred p] (h : Change v I S S') (hI : p I) :
    (S'.countP p : ℤ) = S.countP p + v := by
  obtain ⟨rfl, rfl⟩ | ⟨rfl, rfl⟩ := h
  · rw [Multiset.countP_cons_of_pos _ hI]
    push_cast
    ring
  · rw [Multiset.countP_cons_of_pos _ hI]
    push_cast
    ring

/-- No change of a count, when the property does not hold of `I`. -/
theorem Change.countP_of_neg {p : α → Prop} [DecidablePred p] (h : Change v I S S')
    (hI : ¬ p I) : S'.countP p = S.countP p := by
  obtain ⟨rfl, rfl⟩ | ⟨rfl, rfl⟩ := h
  · exact Multiset.countP_cons_of_neg _ hI
  · exact (Multiset.countP_cons_of_neg _ hI).symm

/-- The change among the intervals with a property that holds of `I`. -/
theorem Change.filter_of_pos {p : α → Prop} [DecidablePred p] (h : Change v I S S') (hI : p I) :
    Change v I (S.filter p) (S'.filter p) := by
  obtain ⟨rfl, rfl⟩ | ⟨rfl, rfl⟩ := h
  · exact .inl ⟨rfl, Multiset.filter_cons_of_pos _ hI⟩
  · exact .inr ⟨rfl, Multiset.filter_cons_of_pos _ hI⟩

/-- No change among the intervals with a property that does not hold of `I`. -/
theorem Change.filter_of_neg {p : α → Prop} [DecidablePred p] (h : Change v I S S')
    (hI : ¬ p I) : S'.filter p = S.filter p := by
  obtain ⟨rfl, rfl⟩ | ⟨rfl, rfl⟩ := h
  · exact Multiset.filter_cons_of_neg _ hI
  · exact (Multiset.filter_cons_of_neg _ hI).symm

end Change

/-! ## The tree -/

/-- A tree over the elementary intervals `l` to `r`: each node has a count and a length. -/
inductive CoverTree (α : Type*) : ℕ → ℕ → Type _
  | leaf (i : ℕ) (sum : ℤ) (len : α) : CoverTree α i i
  | node {l m r : ℕ} (sum : ℤ) (len : α) (left : CoverTree α l m) (right : CoverTree α (m + 1) r) :
      CoverTree α l r

namespace CoverTree

variable {α : Type*} {l m r : ℕ}

/-- The length at the root. -/
def len : CoverTree α l r → α
  | leaf _ _ len => len
  | node _ len _ _ => len

/-- The number of levels below the root. -/
def height : {l r : ℕ} → CoverTree α l r → ℕ
  | _, _, leaf _ _ _ => 0
  | _, _, node _ _ left right => max left.height right.height + 1

/-- Every node's count and length satisfy `P`. -/
def All (P : ℤ → α → Prop) : {l r : ℕ} → CoverTree α l r → Prop
  | _, _, leaf _ sum len => P sum len
  | _, _, node sum len left right => P sum len ∧ left.All P ∧ right.All P

/-- What follows from a property of every node holds of every node. -/
theorem All.imp {P Q : ℤ → α → Prop} (h : ∀ sum len, P sum len → Q sum len) {t : CoverTree α l r}
    (ht : t.All P) : t.All Q := by
  induction t with
  | leaf => exact h _ _ ht
  | node _ _ _ _ ihl ihr => exact ⟨h _ _ ht.1, ihl ht.2.1, ihr ht.2.2⟩

/-- The range of a tree is not empty. -/
theorem le (t : CoverTree α l r) : l ≤ r := by
  induction t with
  | leaf => exact le_rfl
  | node _ _ _ _ ihl ihr => omega

variable [LinearOrder α] (X : ℕ → α)

variable {X} in
/-- The points of the two parts of a tree are strictly sorted. -/
theorem strictMonoOn_parts (left : CoverTree α l m) (right : CoverTree α (m + 1) r)
    (hX : StrictMonoOn X (Set.Icc l (r + 1))) :
    StrictMonoOn X (Set.Icc l (m + 1)) ∧ StrictMonoOn X (Set.Icc (m + 1) (r + 1)) := by
  have hlm := left.le
  have hmr := right.le
  exact ⟨hX.mono (Set.Icc_subset_Icc_right (by omega)),
    hX.mono (Set.Icc_subset_Icc_left (by omega))⟩

variable [AddCommGroup α]

/-- A node with the length that follows from its count and the lengths below. -/
def pushup (sum : ℤ) (left : CoverTree α l m) (right : CoverTree α (m + 1) r) : CoverTree α l r :=
  node sum (if sum ≠ 0 then X (r + 1) - X l else left.len + right.len) left right

/-- The update of the counts with `v`, from the root down to the nodes that `I` covers. -/
def update (I : α × α) (v : ℤ) : {l r : ℕ} → CoverTree α l r → CoverTree α l r
  | _, _, leaf i sum len =>
    if Misses X i i I then leaf i sum len
    else leaf i (sum + v) (if sum + v ≠ 0 then X (i + 1) - X i else 0)
  | l, r, node sum len left right =>
    if Misses X l r I then node sum len left right
    else if Covers X l r I then pushup X (sum + v) left right
    else pushup X sum (left.update I v) (right.update I v)

/-- The tree counts the intervals `S`: each node those that cover its range and no range above, and
its length is the length of its range that the intervals covering no range above cover. -/
noncomputable def Counts : {l r : ℕ} → CoverTree α l r → Multiset (α × α) → Prop
  | _, _, leaf i sum len, S =>
    sum = S.countP (Covers X i i) ∧ len = coveredLength X i i S
  | l, r, node sum len left right, S =>
    sum = S.countP (Covers X l r) ∧ len = coveredLength X l r S ∧
      left.Counts (S.filter (¬ Covers X l r ·)) ∧ right.Counts (S.filter (¬ Covers X l r ·))

variable {X} {I : α × α} {v : ℤ} {S S' : Multiset (α × α)}

/-- An interval that misses the tree does not count. -/
theorem counts_cons_of_misses {t : CoverTree α l r} (hX : StrictMonoOn X (Set.Icc l (r + 1)))
    (h : Misses X l r I) : t.Counts X (I ::ₘ S) ↔ t.Counts X S := by
  induction t generalizing S with
  | leaf i sum len =>
    rw [Counts, Counts, coveredLength_cons_of_misses hX h,
      Multiset.countP_cons_of_neg _ (h.not_covers hX le_rfl)]
  | @node l m r sum len left right ihl ihr =>
    have hlm := left.le
    have hmr := right.le
    have hnot := h.not_covers hX (by omega)
    obtain ⟨hleft, hright⟩ := strictMonoOn_parts left right hX
    rw [Counts, Counts, coveredLength_cons_of_misses hX h, Multiset.countP_cons_of_neg _ hnot,
      Multiset.filter_cons_of_pos (p := (¬ Covers X l r ·)) _ hnot,
      ihl hleft (h.mono hX le_rfl hlm (by omega)),
      ihr hright (h.mono hX (by omega) hmr le_rfl)]

/-- An interval that misses the tree changes nothing. -/
theorem counts_change_of_misses {t : CoverTree α l r} (hS : Change v I S S')
    (hX : StrictMonoOn X (Set.Icc l (r + 1))) (hI : Misses X l r I) (h : t.Counts X S) :
    t.Counts X S' := by
  obtain ⟨rfl, rfl⟩ | ⟨rfl, rfl⟩ := hS
  · exact (counts_cons_of_misses hX hI).mpr h
  · exact (counts_cons_of_misses hX hI).mp h

/-- The length that the update stores in an inner node. -/
theorem len_pushup {left : CoverTree α l m} {right : CoverTree α (m + 1) r}
    (hX : StrictMonoOn X (Set.Icc l (r + 1)))
    (hleft : left.len = coveredLength X l m (S.filter (¬ Covers X l r ·)))
    (hright : right.len = coveredLength X (m + 1) r (S.filter (¬ Covers X l r ·))) :
    (if (S.countP (Covers X l r) : ℤ) ≠ 0 then X (r + 1) - X l else left.len + right.len) =
      coveredLength X l r S := by
  have hlm := left.le
  have hmr := right.le
  split_ifs with hcount
  · -- One of the intervals covers the whole range.
    have hpos : 0 < S.countP (Covers X l r) := by omega
    exact (coveredLength_of_covers hX (by omega) (Multiset.countP_pos.mp hpos)).symm
  · have hzero : S.countP (Covers X l r) = 0 := by omega
    have hall : S.filter (¬ Covers X l r ·) = S :=
      Multiset.filter_eq_self.mpr fun J hJ => Multiset.countP_eq_zero.mp hzero J hJ
    rw [hleft, hright, hall, coveredLength_split hlm hmr]

/-- An elementary interval without intervals. -/
theorem counts_leaf_zero (i : ℕ) : (leaf i 0 0 : CoverTree α i i).Counts X 0 := by
  refine ⟨by rw [Multiset.countP_zero]; rfl, ?_⟩
  rw [coveredLength_self, if_neg (by simp)]

/-- A tree of two trees without intervals. -/
theorem counts_node_zero {left : CoverTree α l m} {right : CoverTree α (m + 1) r}
    (hleft : left.Counts X 0) (hright : right.Counts X 0) :
    (node 0 0 left right : CoverTree α l r).Counts X 0 := by
  refine ⟨by rw [Multiset.countP_zero]; rfl, ?_, hleft, hright⟩
  rw [coveredLength, Finset.sum_eq_zero fun i _ => if_neg (by simp)]

/-- The length at the root of a tree that counts the intervals `S`. -/
theorem Counts.len_eq {t : CoverTree α l r} (h : t.Counts X S) : t.len = coveredLength X l r S := by
  cases t with
  | leaf => exact h.2
  | node => exact h.2.1

/-- The update of a tree that counts `S` is a tree that counts `S` after the change. -/
theorem Counts.update {t : CoverTree α l r} (hX : StrictMonoOn X (Set.Icc l (r + 1)))
    (hI : Aligned X l r I) (hS : Change v I S S') (h : t.Counts X S) :
    (t.update X I v).Counts X S' := by
  induction t generalizing S S' with
  | leaf i sum len =>
    unfold CoverTree.update
    by_cases hmiss : Misses X i i I
    · rw [if_pos hmiss]
      exact counts_change_of_misses hS hX hmiss h
    · -- An elementary interval that is not missed is covered.
      have hcovers : Covers X i i I := (hI i le_rfl le_rfl).resolve_left hmiss
      have hcount : sum + v = (S'.countP (Covers X i i) : ℤ) := by
        rw [hS.countP_of_pos hcovers, h.1]
      rw [if_neg hmiss, hcount]
      refine ⟨rfl, ?_⟩
      have hpos : (S'.countP (Covers X i i) : ℤ) ≠ 0 ↔ ∃ J ∈ S', Covers X i i J := by
        rw [← Multiset.countP_pos]
        omega
      rw [coveredLength_self]
      by_cases hJ : ∃ J ∈ S', Covers X i i J
      · rw [if_pos hJ, if_pos (hpos.mpr hJ)]
      · rw [if_neg hJ, if_neg (mt hpos.mp hJ)]
  | @node l m r sum len left right ihl ihr =>
    have hlm := left.le
    have hmr := right.le
    obtain ⟨hXl, hXr⟩ := strictMonoOn_parts left right hX
    unfold CoverTree.update
    split_ifs with hmiss hcovers
    · exact counts_change_of_misses hS hX hmiss h
    · -- The interval is counted here, and not below.
      obtain ⟨hsum, -, hleft, hright⟩ := h
      have hcount : sum + v = (S'.countP (Covers X l r) : ℤ) := by
        rw [hS.countP_of_pos hcovers, hsum]
      have hfilter : S'.filter (¬ Covers X l r ·) = S.filter (¬ Covers X l r ·) :=
        hS.filter_of_neg (not_not_intro hcovers)
      rw [← hfilter] at hleft hright
      refine ⟨hcount, ?_, hleft, hright⟩
      rw [hcount]
      exact len_pushup hX hleft.len_eq hright.len_eq
    · -- The interval is counted below, and not here.
      obtain ⟨hsum, -, hleft, hright⟩ := h
      have hcount : sum = (S'.countP (Covers X l r) : ℤ) := by
        rw [hS.countP_of_neg hcovers, hsum]
      have hfilter : Change v I (S.filter (¬ Covers X l r ·)) (S'.filter (¬ Covers X l r ·)) :=
        hS.filter_of_pos hcovers
      have hleft' := ihl hXl (hI.mono le_rfl (by omega)) hfilter hleft
      have hright' := ihr hXr (hI.mono (by omega) le_rfl) hfilter hright
      refine ⟨hcount, ?_, hleft', hright'⟩
      rw [hcount]
      exact len_pushup hX hleft'.len_eq hright'.len_eq

/-- The update keeps the height. -/
theorem height_update (t : CoverTree α l r) : (t.update X I v).height = t.height := by
  induction t with
  | leaf =>
    unfold CoverTree.update
    split_ifs <;> rfl
  | node sum len left right ihl ihr =>
    unfold CoverTree.update
    split_ifs
    · rfl
    · rfl
    · rw [pushup, height, height, ihl, ihr]

/-- In a tree that counts the intervals `S`, no count exceeds their number, and no length that of
the range. -/
theorem Counts.all [IsOrderedAddMonoid α] {t : CoverTree α l r}
    (hX : StrictMonoOn X (Set.Icc l (r + 1))) (h : t.Counts X S) {c : ℕ} (hc : S.card ≤ c) {d : α}
    (hd : X (r + 1) - X l ≤ d) :
    t.All fun sum len => 0 ≤ sum ∧ sum ≤ c ∧ 0 ≤ len ∧ len ≤ d := by
  -- A node counts some of the intervals.
  have hcount : ∀ {S : Multiset (α × α)}, S.card ≤ c → ∀ l r,
      0 ≤ (S.countP (Covers X l r) : ℤ) ∧ (S.countP (Covers X l r) : ℤ) ≤ c := by
    intro S hc l r
    have hle := S.countP_le_card (Covers X l r)
    omega
  induction t generalizing S with
  | leaf i sum len =>
    obtain ⟨rfl, rfl⟩ := h
    obtain ⟨hnonneg, hle⟩ := coveredLength_bounds (S := S) hX le_rfl
    exact ⟨(hcount hc i i).1, (hcount hc i i).2, hnonneg, hle.trans hd⟩
  | @node l m r sum len left right ihl ihr =>
    have hlm := left.le
    have hmr := right.le
    obtain ⟨rfl, rfl, hleft, hright⟩ := h
    obtain ⟨hnonneg, hle⟩ := coveredLength_bounds (S := S) hX (show l ≤ r by omega)
    have hfilter : (S.filter (¬ Covers X l r ·)).card ≤ c :=
      (Multiset.card_le_card (Multiset.filter_le _ S)).trans hc
    -- Neither part is longer than the whole.
    obtain ⟨hXl, hXr⟩ := strictMonoOn_parts left right hX
    have hl : X (m + 1) ≤ X (r + 1) := (ends_mono hX le_rfl hlm (by omega)).2
    have hr : X l ≤ X (m + 1) := (ends_mono hX (by omega) hmr le_rfl).1
    refine ⟨⟨(hcount hc l r).1, (hcount hc l r).2, hnonneg, hle.trans hd⟩, ?_, ?_⟩
    · exact ihl hXl hleft hfilter ((sub_le_sub_right hl _).trans hd)
    · exact ihr hXr hright hfilter ((sub_le_sub_left hr _).trans hd)

end CoverTree

end CxxPandora.Lib
