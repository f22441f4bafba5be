import Mathlib.Data.List.Basic
import Mathlib.Order.Lattice

/-!
# Sorting by a key

A list is sorted by a key when the keys ascend (`SortedBy`). Rearranging a list is stable when the
elements of each key keep their order (`Stable`): it is then a permutation. What the sorting
algorithms that move one element at a time need is that elements of different keys may be exchanged
(`Stable.swap`) and that an element may be moved past others whose keys are different
(`Stable.move`).
-/

namespace CxxPandora.Lib

section

variable {α κ : Type*} [LinearOrder κ] {key : α → κ} {l l' l'' : List α}

/-- The keys ascend. -/
def SortedBy (key : α → κ) (l : List α) : Prop := l.Pairwise fun a b => key a ≤ key b

/-- The elements of each key are the same, in the same order. -/
def Stable (key : α → κ) (l l' : List α) : Prop :=
  ∀ k, (l'.filter fun a => key a = k) = l.filter fun a => key a = k

/-- A list is a stable rearrangement of itself. -/
theorem Stable.refl (key : α → κ) (l : List α) : Stable key l l := fun _ => rfl

/-- Stable rearrangements compose. -/
theorem Stable.trans (h : Stable key l l') (h' : Stable key l' l'') : Stable key l l'' :=
  fun k => (h' k).trans (h k)

/-- Two stable rearrangements, one after the other in the list. -/
theorem Stable.append {m m' : List α} (h : Stable key l l') (h' : Stable key m m') :
    Stable key (l ++ m) (l' ++ m') := by
  intro k
  rw [List.filter_append, List.filter_append, h k, h' k]

/-- A stable rearrangement behind one element. -/
theorem Stable.cons (a : α) (h : Stable key l l') : Stable key (a :: l) (a :: l') :=
  (Stable.refl key [a]).append h

/-- Two neighbours of different keys may be exchanged. -/
theorem Stable.swap {a b : α} (h : key a ≠ key b) (l : List α) :
    Stable key (a :: b :: l) (b :: a :: l) := by
  intro k
  by_cases ha : key a = k
  · have hb : key b ≠ k := fun hb => h (ha.trans hb.symm)
    simp [ha, hb]
  · simp [ha, List.filter_cons]

/-- An element may be moved to the front past elements of other keys. -/
theorem Stable.move {a : α} (h : ∀ b ∈ l, key b ≠ key a) : Stable key (l ++ [a]) (a :: l) := by
  induction l with
  | nil => exact Stable.refl key _
  | cons b l ih =>
    have htail : Stable key (b :: (l ++ [a])) (b :: a :: l) :=
      (ih fun c hc => h c (List.mem_cons_of_mem _ hc)).cons b
    exact htail.trans (Stable.swap (h b List.mem_cons_self) l)

/-- A stable rearrangement is a permutation. -/
theorem Stable.perm (h : Stable key l l') : l'.Perm l := by
  classical
  rw [List.perm_iff_count]
  intro a
  have hcount : ∀ m : List α, (m.filter fun b => key b = key a).count a = m.count a :=
    fun m => List.count_filter (by simp)
  rw [← hcount l', ← hcount l, h (key a)]

/-- Lists sorted by one key, one after the other. -/
theorem sortedBy_append : SortedBy key (l ++ l') ↔
    SortedBy key l ∧ SortedBy key l' ∧ ∀ a ∈ l, ∀ b ∈ l', key a ≤ key b :=
  List.pairwise_append

/-- An element before a sorted list. -/
theorem sortedBy_cons {a : α} :
    SortedBy key (a :: l) ↔ (∀ b ∈ l, key a ≤ key b) ∧ SortedBy key l :=
  List.pairwise_cons

/-- By the elements themselves, a list has one sorted permutation. -/
theorem SortedBy.eq_of_perm [LinearOrder α] {l l' : List α} (h : SortedBy id l)
    (h' : SortedBy id l') (hperm : l.Perm l') : l = l' :=
  hperm.eq_of_pairwise (fun _ _ _ _ hab hba => le_antisymm hab hba) h h'

end

end CxxPandora.Lib
