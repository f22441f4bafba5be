import Mathlib.MeasureTheory.Measure.Lebesgue.Basic

/-!
# The area of a union of boxes with integer corners

The union of boxes is, up to its border, a union of unit cells. Its area is the number of cells
(`volume_iUnion_region`), and the number of cells is the sum of the lengths of the rows
(`card_cells`). Likewise the length of a union of intervals is the number of its integer points
(`volume_iUnion_Ico`).
-/

namespace CxxPandora.Lib

open MeasureTheory

/-- A box with sides parallel to the axes, given by two opposite corners. -/
structure Box where
  x1 : ℤ
  y1 : ℤ
  x2 : ℤ
  y2 : ℤ
  deriving DecidableEq, Repr

namespace Box

/-- The points of a box. -/
def region (b : Box) : Set (ℝ × ℝ) := Set.Icc (b.x1 : ℝ) b.x2 ×ˢ Set.Icc (b.y1 : ℝ) b.y2

/-- The unit cells of a box, given by their least corners. -/
noncomputable def cells (b : Box) : Finset (ℤ × ℤ) := Finset.Ico b.x1 b.x2 ×ˢ Finset.Ico b.y1 b.y2

end Box

/-- The unit cells of a union of boxes. -/
noncomputable def cells (bs : List Box) : Finset (ℤ × ℤ) := bs.toFinset.biUnion Box.cells

/-- The cells of a union of boxes in row `y`. -/
noncomputable def row (bs : List Box) (y : ℤ) : Finset ℤ :=
  (bs.filter fun b => b.y1 ≤ y ∧ y < b.y2).toFinset.biUnion fun b => Finset.Ico b.x1 b.x2

/-- The points of a unit cell. -/
def unitCell (p : ℤ × ℤ) : Set (ℝ × ℝ) := Set.Ico (p.1 : ℝ) (p.1 + 1) ×ˢ Set.Ico (p.2 : ℝ) (p.2 + 1)

/-- A cell of a union of boxes is a cell of one of them. -/
theorem mem_cells {bs : List Box} {p : ℤ × ℤ} :
    p ∈ cells bs ↔ ∃ b ∈ bs, (b.x1 ≤ p.1 ∧ p.1 < b.x2) ∧ b.y1 ≤ p.2 ∧ p.2 < b.y2 := by
  simp [cells, Box.cells]

/-- A cell of a row is a cell of one of the boxes that reach the row. -/
theorem mem_row {bs : List Box} {x y : ℤ} :
    x ∈ row bs y ↔ ∃ b ∈ bs, (b.y1 ≤ y ∧ y < b.y2) ∧ b.x1 ≤ x ∧ x < b.x2 := by
  simp [row, and_assoc]

/-- A point is in the unit cell that its integer parts give, and in no other one. -/
theorem mem_unitCell {p : ℤ × ℤ} {z : ℝ × ℝ} : z ∈ unitCell p ↔ p = (⌊z.1⌋, ⌊z.2⌋) := by
  unfold unitCell
  rw [Set.mem_prod, Set.mem_Ico, Set.mem_Ico, ← Int.floor_eq_iff, ← Int.floor_eq_iff, Prod.ext_iff]
  exact and_congr eq_comm eq_comm

/-- A unit cell has area one. -/
theorem volume_unitCell (p : ℤ × ℤ) : volume (unitCell p) = 1 := by
  unfold unitCell
  rw [Measure.volume_eq_prod, Measure.prod_prod, Real.volume_Ico, Real.volume_Ico]
  simp

/-- The union of the boxes without their upper borders is the union of the unit cells. -/
theorem iUnion_Ico_eq (bs : List Box) :
    ⋃ b ∈ bs, Set.Ico (b.x1 : ℝ) b.x2 ×ˢ Set.Ico (b.y1 : ℝ) b.y2 =
      ⋃ p ∈ cells bs, unitCell p := by
  ext z
  simp only [Set.mem_iUnion, mem_unitCell, exists_prop, exists_eq_right, mem_cells, Set.mem_prod,
    Set.mem_Ico, Int.le_floor, Int.floor_lt]

/-- The area of the union of the boxes is the number of its unit cells. -/
theorem volume_iUnion_region (bs : List Box) :
    volume (⋃ b ∈ bs, b.region) = (cells bs).card := by
  -- The borders have no area.
  have hborder : (⋃ b ∈ bs, b.region : Set (ℝ × ℝ)) =ᵐ[volume]
      ⋃ b ∈ bs, Set.Ico (b.x1 : ℝ) b.x2 ×ˢ Set.Ico (b.y1 : ℝ) b.y2 := by
    refine Filter.EventuallyEq.countable_bUnion (S := {b | b ∈ bs})
      bs.finite_toSet.countable fun b _ => ?_
    exact Measure.set_prod_ae_eq Ico_ae_eq_Icc.symm Ico_ae_eq_Icc.symm
  -- A point is in one cell only.
  have hdisj : Set.PairwiseDisjoint (cells bs : Set (ℤ × ℤ)) unitCell := by
    intro p _ q _ hpq
    refine Set.disjoint_left.mpr fun z hp hq => hpq ?_
    rw [mem_unitCell.mp hp, mem_unitCell.mp hq]
  have hmeas : ∀ p ∈ cells bs, MeasurableSet (unitCell p) := fun p _ =>
    measurableSet_Ico.prod measurableSet_Ico
  calc volume (⋃ b ∈ bs, b.region)
      = volume (⋃ p ∈ cells bs, unitCell p) := by rw [measure_congr hborder, iUnion_Ico_eq]
    _ = ∑ p ∈ cells bs, volume (unitCell p) := measure_biUnion_finset hdisj hmeas
    _ = (cells bs).card := by
        rw [Finset.sum_congr rfl fun p _ => volume_unitCell p, Finset.sum_const, nsmul_one]

/-- The number of unit cells is the sum of the lengths of the rows. -/
theorem card_cells (bs : List Box) {lo hi : ℤ} (h : ∀ b ∈ bs, lo ≤ b.y1 ∧ b.y2 ≤ hi) :
    (cells bs).card = ∑ y ∈ Finset.Ico lo hi, (row bs y).card := by
  have hmaps : ((cells bs : Finset (ℤ × ℤ)) : Set (ℤ × ℤ)).MapsTo Prod.snd (Finset.Ico lo hi) := by
    intro p hp
    obtain ⟨b, hb, -, hy⟩ := mem_cells.mp hp
    have hb := h b hb
    exact Finset.mem_Ico.mpr ⟨by omega, by omega⟩
  rw [Finset.card_eq_sum_card_fiberwise hmaps]
  refine Finset.sum_congr rfl fun y _ => ?_
  -- A row is the image of its cells.
  refine Finset.card_bij (fun p _ => p.1) ?_ ?_ ?_
  · intro p hp
    obtain ⟨hcell, rfl⟩ := Finset.mem_filter.mp hp
    obtain ⟨b, hb, hx, hy⟩ := mem_cells.mp hcell
    exact mem_row.mpr ⟨b, hb, hy, hx⟩
  · intro p hp q hq hpq
    exact Prod.ext hpq ((Finset.mem_filter.mp hp).2.trans (Finset.mem_filter.mp hq).2.symm)
  · intro x hx
    obtain ⟨b, hb, hy, hx⟩ := mem_row.mp hx
    exact ⟨(x, y), Finset.mem_filter.mpr ⟨mem_cells.mpr ⟨b, hb, hx, hy⟩, rfl⟩, rfl⟩

/-! ## The length of a union of intervals -/

/-- The integer points of a union of intervals, each without its upper end. -/
noncomputable def points (S : Multiset (ℤ × ℤ)) : Finset ℤ :=
  S.toFinset.biUnion fun I => Finset.Ico I.1 I.2

/-- A point of a union of intervals is a point of one of them. -/
theorem mem_points {S : Multiset (ℤ × ℤ)} {x : ℤ} : x ∈ points S ↔ ∃ I ∈ S, I.1 ≤ x ∧ x < I.2 := by
  simp only [points, Finset.mem_biUnion, Multiset.mem_toFinset, Finset.mem_Ico]

/-- The length of the union of the intervals is the number of its integer points. -/
theorem volume_iUnion_Ico (S : Multiset (ℤ × ℤ)) :
    volume (⋃ I ∈ S, Set.Ico (I.1 : ℝ) I.2) = (points S).card := by
  have hunit : ∀ (x : ℤ) (z : ℝ), z ∈ Set.Ico (x : ℝ) (x + 1) ↔ x = ⌊z⌋ := by
    intro x z
    rw [Set.mem_Ico, ← Int.floor_eq_iff, eq_comm]
  have hunion : ⋃ I ∈ S, Set.Ico (I.1 : ℝ) I.2 = ⋃ x ∈ points S, Set.Ico (x : ℝ) (x + 1) := by
    ext z
    simp only [Set.mem_iUnion, hunit, exists_prop, exists_eq_right, mem_points, Set.mem_Ico,
      Int.le_floor, Int.floor_lt]
  have hdisj : Set.PairwiseDisjoint (points S : Set ℤ) fun x => Set.Ico (x : ℝ) (x + 1) := by
    intro x _ y _ hxy
    refine Set.disjoint_left.mpr fun z hx hy => hxy ?_
    rw [(hunit x z).mp hx, (hunit y z).mp hy]
  have hone : ∀ x : ℤ, volume (Set.Ico (x : ℝ) (x + 1)) = 1 := by
    intro x
    rw [Real.volume_Ico, add_sub_cancel_left, ENNReal.ofReal_one]
  calc volume (⋃ I ∈ S, Set.Ico (I.1 : ℝ) I.2)
      = ∑ x ∈ points S, volume (Set.Ico (x : ℝ) (x + 1)) := by
        rw [hunion]
        exact measure_biUnion_finset hdisj fun x _ => measurableSet_Ico
    _ = (points S).card := by
        rw [Finset.sum_congr rfl fun x _ => hone x, Finset.sum_const, nsmul_one]

end CxxPandora.Lib
