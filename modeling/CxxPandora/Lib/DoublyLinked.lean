import CxxPandora.Lib.LinkedList

/-!
# Doubly linked lists

Two families of links lead over the same nodes, one from the first node to the last and one back:
`Doubly next prev a b l`. What is done at one end of the list is the mirror image of what is done at
the other end (`Doubly.mirror`), so an insertion is proved at the front only (`Doubly.push`). A node
is taken out by leading the links of its neighbours over it (`segment_unlink`).
-/

namespace CxxPandora.Lib

variable {ι : Type*} {next prev : ι → Option ι} {a b c : Option ι} {l u v : List ι} {x y : ι}

/-- The first links lead from `a` over the nodes to the end, and the second ones lead from `b` over
them in reverse. -/
structure Doubly (next prev : ι → Option ι) (a b : Option ι) (l : List ι) : Prop where
  forth : Segment next a l none
  back : Segment prev b l.reverse none

/-- The empty list. -/
theorem Doubly.nil : Doubly next prev none none [] := ⟨rfl, rfl⟩

/-- The list from its other end. -/
theorem Doubly.mirror (h : Doubly next prev a b l) : Doubly prev next b a l.reverse where
  forth := h.back
  back := by
    rw [List.reverse_reverse]
    exact h.forth

/-- No node is there twice. -/
theorem Doubly.nodup (h : Doubly next prev a b l) : l.Nodup := h.forth.nodup

/-- The first pointer is to the first node. -/
theorem Doubly.head_eq (h : Doubly next prev a b l) : a = l.head? := h.forth.eq_head?

/-- The second pointer is to the last node. -/
theorem Doubly.tail_eq (h : Doubly next prev a b l) : b = l.reverse.head? := h.back.eq_head?

/-- One pointer is none exactly when the other one is. -/
theorem Doubly.head_eq_none_iff (h : Doubly next prev a b l) : a = none ↔ b = none := by
  rw [h.head_eq, h.tail_eq, List.head?_eq_none_iff, List.head?_eq_none_iff,
    List.reverse_eq_nil_iff]

/-- The first pointer is to a node exactly when no node is before it. -/
theorem Doubly.head_eq_some_iff (h : Doubly next prev a b (u ++ x :: v)) : a = some x ↔ u = [] := by
  rw [h.head_eq]
  cases u with
  | nil => exact iff_of_true rfl rfl
  | cons y u =>
    refine iff_of_false (fun heq => ?_) (List.cons_ne_nil y u)
    obtain rfl := Option.some.inj heq
    exact (List.nodup_cons.mp h.nodup).1 (List.mem_append_right u List.mem_cons_self)

/-- The second pointer is to a node exactly when no node is behind it. -/
theorem Doubly.tail_eq_some_iff (h : Doubly next prev a b (u ++ x :: v)) : b = some x ↔ v = [] := by
  have hmirror := h.mirror
  rw [List.reverse_append, List.reverse_cons, List.append_assoc, List.singleton_append] at hmirror
  rw [hmirror.head_eq_some_iff, List.reverse_eq_nil_iff]

/-- The node before another one. -/
theorem Doubly.prev_eq (h : Doubly next prev a b (u ++ x :: y :: v)) : prev y = some x := by
  have hback := h.back
  rw [List.reverse_append, List.reverse_cons, List.reverse_cons, List.append_assoc,
    List.append_assoc] at hback
  obtain ⟨c, -, -, hx, -⟩ := segment_append.mp hback
  exact hx

/-- The node after another one. -/
theorem Doubly.next_eq (h : Doubly next prev a b (u ++ x :: y :: v)) : next x = some y := by
  obtain ⟨c, -, -, hy, -⟩ := segment_append.mp h.forth
  exact hy

variable [DecidableEq ι]

/-- A link that leads over the node behind it. -/
theorem segment_unlink (h : Segment next a (u ++ x :: y :: v) c) (hu : x ∉ u) (hv : x ∉ v) :
    Segment (Function.update next x (next y)) a (u ++ x :: v) c := by
  obtain ⟨b, hseg, rfl, -, hrest⟩ := segment_append.mp h
  refine segment_append.mpr ⟨some x, (segment_update hu _).mpr hseg, rfl, ?_⟩
  rw [Function.update_self]
  exact (segment_update hv _).mpr hrest

/-- A link that leads on from what was the last node. -/
theorem segment_snoc (h : Segment next a (u ++ [x]) none) (hu : x ∉ u) (hne : x ≠ y)
    (hy : next y = none) :
    Segment (Function.update next x (some y)) a (u ++ [x, y]) none := by
  obtain ⟨b, hseg, rfl, -⟩ := segment_append.mp h
  refine segment_append.mpr ⟨some x, (segment_update hu _).mpr hseg, rfl, ?_⟩
  rw [Function.update_self]
  refine ⟨rfl, ?_⟩
  rw [Function.update_of_ne (Ne.symm hne)]
  exact hy

/-- A new node in front of the empty list. -/
theorem Doubly.push_nil (h : Doubly next prev a b []) :
    Doubly (Function.update next x a) (Function.update prev x none) (some x) (some x) [x] where
  forth := ⟨rfl, by rw [Function.update_self]; exact h.forth⟩
  back := ⟨rfl, by rw [Function.update_self]; rfl⟩

/-- A new node in front of the first one. -/
theorem Doubly.push (h : Doubly next prev a b (y :: v)) (hx : x ∉ y :: v) :
    Doubly (Function.update next x a) (Function.update (Function.update prev x none) y (some x))
      (some x) b (x :: y :: v) where
  forth := by
    refine ⟨rfl, ?_⟩
    rw [Function.update_self]
    exact (segment_update hx a).mpr h.forth
  back := by
    have hy : y ∉ v.reverse := fun hy =>
      (List.nodup_cons.mp h.nodup).1 (List.mem_reverse.mp hy)
    have hback := h.back
    rw [List.reverse_cons] at hback
    rw [List.reverse_cons, List.reverse_cons, List.append_assoc]
    refine segment_snoc ?_ hy (fun hyx => hx (hyx ▸ List.mem_cons_self)) ?_
    · refine (segment_update ?_ none).mpr hback
      rw [← List.reverse_cons, List.mem_reverse]
      exact hx
    · rw [Function.update_self]

/-- The first node is taken away. -/
theorem Doubly.pop (h : Doubly next prev a b (x :: y :: v)) :
    Doubly next (Function.update prev y (prev x)) (next x) b (y :: v) where
  forth := h.forth.2
  back := by
    have hy : y ∉ v.reverse := fun hy =>
      (List.nodup_cons.mp (List.nodup_cons.mp h.nodup).2).1 (List.mem_reverse.mp hy)
    have hback := h.back
    rw [List.reverse_cons, List.reverse_cons, List.append_assoc] at hback
    rw [List.reverse_cons]
    exact segment_unlink hback hy List.not_mem_nil

/-- The last node is taken away. -/
theorem Doubly.pop_last (h : Doubly next prev a b (u ++ [y, x])) :
    Doubly (Function.update next y (next x)) prev a (prev x) (u ++ [y]) := by
  have hreverse : (u ++ [y, x]).reverse = x :: y :: u.reverse := List.reverse_append
  have hpop := (Doubly.pop (hreverse ▸ h.mirror)).mirror
  rwa [List.reverse_cons, List.reverse_reverse] at hpop

/-- A node between two others is taken away. -/
theorem Doubly.unlink {p n : ι} (h : Doubly next prev a b (u ++ p :: x :: n :: v)) :
    Doubly (Function.update next p (next x)) (Function.update prev n (prev x)) a b
      (u ++ p :: n :: v) where
  forth := by
    have hnodup := List.nodup_append.mp h.nodup
    have hp : p ∉ u := fun hp => hnodup.2.2 p hp p List.mem_cons_self rfl
    have hp' : p ∉ n :: v := fun hp =>
      (List.nodup_cons.mp hnodup.2.1).1 (List.mem_cons_of_mem x hp)
    exact segment_unlink h.forth hp hp'
  back := by
    have hback := h.back
    have hnodup : (v.reverse ++ n :: x :: (p :: u.reverse)).Nodup := by
      have hreverse := List.nodup_reverse.mpr h.nodup
      simpa using hreverse
    have hn : n ∉ v.reverse := fun hn =>
      (List.nodup_append.mp hnodup).2.2 n hn n List.mem_cons_self rfl
    have hn' : n ∉ p :: u.reverse := fun hn =>
      (List.nodup_cons.mp (List.nodup_append.mp hnodup).2.1).1 (List.mem_cons_of_mem x hn)
    have hseg : Segment prev b (v.reverse ++ n :: x :: (p :: u.reverse)) none := by
      simpa using hback
    have hnew := segment_unlink hseg hn hn'
    simpa using hnew

end CxxPandora.Lib
