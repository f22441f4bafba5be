import Mathlib.Data.List.Basic
import Mathlib.Data.List.Perm.Basic

/-!
# Merging lists

A merge takes the first element of one of the lists, again and again. `MergeOf ls rests out` says
that the lists `ls` have been merged to `out` up to what is left of them, `rests`: every element is
in `out` or left, and what has been taken of each list is in `out` in its order. When the element
taken is always a least one, the output of ascending lists ascends (`Ascends.take`).

The elements that can be taken are the `heads` of what is left; `perm_heads` says how they change.
-/

namespace CxxPandora.Lib

variable {α : Type*} {ls rests pre post : List (List α)} {out rest : List α} {x : α}

/-- The lists have been merged to the output, up to what is left of them. -/
structure MergeOf (ls rests : List (List α)) (out : List α) : Prop where
  /-- Each list is what has been taken of it and what is left. -/
  split : ∀ l ∈ ls, ∃ taken rest, rest ∈ rests ∧ l = taken ++ rest ∧ taken.Sublist out
  /-- Each element is in the output or left. -/
  perm : (out ++ rests.flatten).Perm ls.flatten

/-- Nothing has been taken. -/
theorem MergeOf.init (ls : List (List α)) : MergeOf ls ls [] where
  split l hl := ⟨[], l, hl, rfl, List.nil_sublist _⟩
  perm := List.Perm.refl _

/-- The first element of one of the lists is taken. -/
theorem MergeOf.take (h : MergeOf ls (pre ++ (x :: rest) :: post) out) :
    MergeOf ls (pre ++ rest :: post) (out ++ [x]) where
  split l hl := by
    obtain ⟨taken, rest', hrest', rfl, hsub⟩ := h.split l hl
    have hout : taken.Sublist (out ++ [x]) := hsub.trans (List.sublist_append_left out [x])
    rcases List.mem_append.mp hrest' with hpre | hpost
    · exact ⟨taken, rest', List.mem_append_left _ hpre, rfl, hout⟩
    · rcases List.mem_cons.mp hpost with rfl | hpost
      · refine ⟨taken ++ [x], rest, by simp, by simp, hsub.append_right [x]⟩
      · exact ⟨taken, rest', by simp [hpost], rfl, hout⟩
  perm := by
    refine List.Perm.trans ?_ h.perm
    simp only [List.flatten_append, List.flatten_cons, List.append_assoc, List.cons_append,
      List.nil_append]
    exact List.Perm.append_left out List.perm_middle.symm

/-- When nothing is left, the output has every element once, and each list in its order. -/
theorem MergeOf.done (h : MergeOf ls rests out) (hempty : ∀ rest ∈ rests, rest = []) :
    out.Perm ls.flatten ∧ ∀ l ∈ ls, l.Sublist out := by
  have hflatten : rests.flatten = [] := List.flatten_eq_nil_iff.mpr hempty
  constructor
  · have hperm := h.perm
    rwa [hflatten, List.append_nil] at hperm
  · intro l hl
    obtain ⟨taken, rest, hrest, rfl, hsub⟩ := h.split l hl
    rwa [hempty rest hrest, List.append_nil]

/-- What has been put out and what is left ascend, and the former is not above the latter. -/
structure Ascends (r : α → α → Prop) (rests : List (List α)) (out : List α) : Prop where
  /-- The output ascends. -/
  sorted : out.Pairwise r
  /-- What is left of each list ascends. -/
  left : ∀ rest ∈ rests, rest.Pairwise r
  /-- The output is not above what is left. -/
  below : ∀ a ∈ out, ∀ rest ∈ rests, ∀ b ∈ rest, r a b

/-- Ascending lists, and nothing put out. -/
theorem Ascends.init {r : α → α → Prop} (h : ∀ l ∈ ls, l.Pairwise r) : Ascends r ls [] where
  sorted := List.Pairwise.nil
  left := h
  below _ ha := absurd ha List.not_mem_nil

/-- The least of the first elements is taken. -/
theorem Ascends.take {r : α → α → Prop} (htrans : ∀ a b c, r a b → r b c → r a c)
    (h : Ascends r (pre ++ (x :: rest) :: post) out)
    (hleast : ∀ l ∈ pre ++ (x :: rest) :: post, ∀ y ∈ l.head?, r x y) :
    Ascends r (pre ++ rest :: post) (out ++ [x]) := by
  have hx : x :: rest ∈ pre ++ (x :: rest) :: post := by simp
  -- What is left of each list is part of what was left of it.
  have hpart : ∀ l ∈ pre ++ rest :: post, ∃ l' ∈ pre ++ (x :: rest) :: post, l.Sublist l' := by
    intro l hl
    rcases List.mem_append.mp hl with hpre | hpost
    · exact ⟨l, List.mem_append_left _ hpre, List.Sublist.refl l⟩
    · rcases List.mem_cons.mp hpost with rfl | hpost
      · exact ⟨x :: l, hx, List.sublist_cons_self x l⟩
      · exact ⟨l, by simp [hpost], List.Sublist.refl l⟩
  have hfirst : ∀ l ∈ pre ++ (x :: rest) :: post, ∀ b ∈ l, b ∈ l.head? ∨ r x b := by
    intro l hl b hb
    cases l with
    | nil => exact absurd hb List.not_mem_nil
    | cons y l =>
      rcases List.mem_cons.mp hb with rfl | hb
      · exact Or.inl rfl
      · have hy := hleast _ hl y rfl
        exact Or.inr (htrans _ _ _ hy ((List.pairwise_cons.mp (h.left _ hl)).1 b hb))
  constructor
  · refine List.pairwise_append.mpr ⟨h.sorted, List.pairwise_singleton r x, fun a ha b hb => ?_⟩
    rw [List.mem_singleton.mp hb]
    exact h.below a ha _ hx x List.mem_cons_self
  · intro l hl
    obtain ⟨l', hl', hsub⟩ := hpart l hl
    exact (h.left l' hl').sublist hsub
  · intro a ha l hl b hb
    obtain ⟨l', hl', hsub⟩ := hpart l hl
    rcases List.mem_append.mp ha with ha | ha
    · exact h.below a ha l' hl' b (hsub.subset hb)
    · rw [List.mem_singleton.mp ha]
      rcases hfirst l' hl' b (hsub.subset hb) with hhead | hlt
      · exact hleast l' hl' b hhead
      · exact hlt

/-! ## First elements -/

/-- The first elements of the lists that have one. -/
def heads (rests : List (List α)) : List α := rests.filterMap List.head?

/-- A first element is that of some list. -/
theorem exists_of_mem_heads (h : x ∈ heads rests) :
    ∃ pre rest post, rests = pre ++ (x :: rest) :: post := by
  obtain ⟨l, hl, hhead⟩ := List.mem_filterMap.mp h
  obtain ⟨rest, rfl⟩ := List.head?_eq_some_iff.mp hhead
  obtain ⟨pre, post, rfl⟩ := List.append_of_mem hl
  exact ⟨pre, rest, post, rfl⟩

/-- The first element of a list is among them. -/
theorem head?_mem_heads {l : List α} (hl : l ∈ rests) (hx : x ∈ l.head?) : x ∈ heads rests :=
  List.mem_filterMap.mpr ⟨l, hl, hx⟩

/-- No list has a first element when all are empty. -/
theorem eq_nil_of_heads (h : heads rests = []) : ∀ rest ∈ rests, rest = [] := by
  intro rest hrest
  exact List.head?_eq_none_iff.mp (List.filterMap_eq_nil_iff.mp h rest hrest)

/-- A first element that is taken is replaced by the next one of its list. -/
theorem perm_heads [DecidableEq α] {firsts : List α}
    (h : firsts.Perm (heads (pre ++ (x :: rest) :: post))) :
    (rest.head?.toList ++ firsts.erase x).Perm (heads (pre ++ rest :: post)) := by
  have hold : heads (pre ++ (x :: rest) :: post) = heads pre ++ x :: heads post := by
    simp [heads]
  have hnew : heads (pre ++ rest :: post) =
      heads pre ++ (rest.head?.toList ++ heads post) := by
    unfold heads
    rw [List.filterMap_append, List.filterMap_cons]
    cases rest.head? <;> rfl
  have herase : (firsts.erase x).Perm (heads pre ++ heads post) := by
    rw [hold] at h
    have hfront := (h.trans List.perm_middle).erase x
    rwa [List.erase_cons_head] at hfront
  rw [hnew]
  exact (herase.append_left _).trans (List.perm_append_comm_assoc _ _ _)

end CxxPandora.Lib
