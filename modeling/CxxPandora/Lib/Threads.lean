import CxxPandora.Lib.DoublyLinked

/-!
# Lists threaded through one memory

Several singly linked lists in one memory of links. Each list hangs on an anchor, which is a link
like those of the nodes, so that the first node of a list is taken out like every other one: the
link that leads to it is led on. `Threads next anchor lists` says which nodes are on which list. A
new node goes to the front of a list (`Threads.push`), a node is taken out (`Threads.unlink`), and
what takes a node from one list to the front of another is the one after the other (`Threads.move`).
-/

namespace CxxPandora.Lib

variable {ι κ : Type*} {next : ι → Option ι} {anchor : κ → ι} {lists : κ → List ι}
  {x : ι} {k m : κ} {u v : List ι}

/-- The list that hangs on each anchor. No node is on two lists, and no anchor is a node. -/
structure Threads (next : ι → Option ι) (anchor : κ → ι) (lists : κ → List ι) : Prop where
  seg : ∀ k, Segment next (next (anchor k)) (lists k) none
  disjoint : ∀ k m x, x ∈ lists k → x ∈ lists m → k = m
  anchor_inj : Function.Injective anchor
  anchor_notMem : ∀ k m, anchor k ∉ lists m

/-- Where the link to a node is, when `u` are the nodes before it. -/
def linkTo (a : ι) (u : List ι) : ι := u.getLast?.getD a

/-- The link to the first node is the anchor. -/
@[simp] theorem linkTo_nil (a : ι) : linkTo a [] = a := rfl

/-- The link to any other node is that of the node before it. -/
@[simp] theorem linkTo_concat (a : ι) (u : List ι) (x : ι) : linkTo a (u ++ [x]) = x := by
  rw [linkTo, List.getLast?_concat, Option.getD_some]

/-- The link to a node is the anchor, or that of a node before it. -/
theorem linkTo_eq_or_mem (a : ι) (u : List ι) : linkTo a u = a ∨ linkTo a u ∈ u := by
  rcases u.eq_nil_or_concat with rfl | ⟨u, y, rfl⟩
  · exact Or.inl rfl
  · rw [List.concat_eq_append, linkTo_concat]
    exact Or.inr (List.mem_append_right u (List.mem_singleton_self y))

namespace Threads

/-- No node is on a list twice. -/
theorem nodup (h : Threads next anchor lists) (k : κ) : (lists k).Nodup := (h.seg k).nodup

/-- The first node of a list. -/
theorem next_anchor (h : Threads next anchor lists) (k : κ) :
    next (anchor k) = (lists k).head? := (h.seg k).eq_head?

/-- The link of a node leads to the node behind it, if there is one. -/
theorem next_eq (h : Threads next anchor lists) (hk : lists k = u ++ x :: v) :
    next x = v.head? := by
  have hseg := h.seg k
  rw [hk] at hseg
  obtain ⟨-, -, -, hv⟩ := segment_append.mp hseg
  exact hv.eq_head?

/-- The link to a node is not on any other list, and on no other anchor. -/
theorem linkTo_ne (h : Threads next anchor lists) (hk : lists k = u ++ x :: v) (hm : m ≠ k) :
    linkTo (anchor k) u ∉ lists m ∧ linkTo (anchor k) u ≠ anchor m := by
  rcases linkTo_eq_or_mem (anchor k) u with heq | hmem
  · rw [heq]
    exact ⟨h.anchor_notMem k m, fun heq => hm (h.anchor_inj heq.symm)⟩
  · have hmem' : linkTo (anchor k) u ∈ lists k := hk ▸ List.mem_append_left _ hmem
    exact ⟨fun hmem'' => hm (h.disjoint m k _ hmem'' hmem'),
      fun heq => h.anchor_notMem m k (heq ▸ hmem')⟩

variable [DecidableEq κ]

/-- The nodes of a list without one of them. -/
theorem mem_update_unlink (hk : lists k = u ++ x :: v) {y : ι} {m : κ}
    (hy : y ∈ Function.update lists k (u ++ v) m) : y ∈ lists m := by
  by_cases hm : m = k
  · subst hm
    rw [Function.update_self, List.mem_append] at hy
    rw [hk, List.mem_append, List.mem_cons]
    rcases hy with hy | hy
    · exact Or.inl hy
    · exact Or.inr (Or.inr hy)
  · rwa [Function.update_of_ne hm] at hy

/-- A node that has been taken out is on no list. -/
theorem notMem_unlink (h : Threads next anchor lists) (hk : lists k = u ++ x :: v) (m : κ) :
    x ∉ Function.update lists k (u ++ v) m := by
  have hx : x ∈ lists k := hk ▸ List.mem_append_right u List.mem_cons_self
  by_cases hm : m = k
  · subst hm
    have hnodup := h.nodup m
    rw [hk] at hnodup
    rw [Function.update_self]
    exact (List.nodup_cons.mp (List.nodup_middle.mp hnodup)).1
  · rw [Function.update_of_ne hm]
    exact fun hmem => hm (h.disjoint m k x hmem hx)

/-- The nodes of all lists are the one that has been taken out and those that are left. -/
theorem exists_mem_unlink (hk : lists k = u ++ x :: v) {y : ι} :
    (∃ m, y ∈ lists m) ↔ y = x ∨ ∃ m, y ∈ Function.update lists k (u ++ v) m := by
  constructor
  · rintro ⟨m, hy⟩
    by_cases hm : m = k
    · subst hm
      rw [hk, List.mem_append, List.mem_cons] at hy
      rcases hy with hy | rfl | hy
      · exact Or.inr ⟨m, by rw [Function.update_self]; exact List.mem_append_left v hy⟩
      · exact Or.inl rfl
      · exact Or.inr ⟨m, by rw [Function.update_self]; exact List.mem_append_right u hy⟩
    · exact Or.inr ⟨m, by rwa [Function.update_of_ne hm]⟩
  · rintro (rfl | ⟨m, hy⟩)
    · exact ⟨k, hk ▸ List.mem_append_right u List.mem_cons_self⟩
    · exact ⟨m, mem_update_unlink hk hy⟩

/-- The nodes of all lists are the one that has been put in front and those that were there. -/
theorem exists_mem_push (lists : κ → List ι) {y : ι} :
    (∃ m, y ∈ Function.update lists k (x :: lists k) m) ↔ y = x ∨ ∃ m, y ∈ lists m := by
  constructor
  · rintro ⟨m, hy⟩
    by_cases hm : m = k
    · subst hm
      rw [Function.update_self, List.mem_cons] at hy
      exact hy.imp_right fun hy => ⟨m, hy⟩
    · rw [Function.update_of_ne hm] at hy
      exact Or.inr ⟨m, hy⟩
  · rintro (rfl | ⟨m, hy⟩)
    · exact ⟨k, by rw [Function.update_self]; exact List.mem_cons_self⟩
    · by_cases hm : m = k
      · subst hm
        exact ⟨m, by rw [Function.update_self]; exact List.mem_cons_of_mem x hy⟩
      · exact ⟨m, by rwa [Function.update_of_ne hm]⟩

variable [DecidableEq ι]

/-- A node that is on no list is put in front of one. -/
theorem push (h : Threads next anchor lists) (hx : ∀ m, x ∉ lists m) (hx' : ∀ m, x ≠ anchor m)
    (k : κ) :
    Threads (Function.update (Function.update next x (next (anchor k))) (anchor k) (some x))
      anchor (Function.update lists k (x :: lists k)) where
  anchor_inj := h.anchor_inj
  seg := by
    intro m
    by_cases hmk : m = k
    · subst hmk
      rw [Function.update_self, Function.update_self]
      refine ⟨rfl, ?_⟩
      rw [Function.update_of_ne (hx' m), Function.update_self]
      exact (segment_update (h.anchor_notMem m m) _).mpr ((segment_update (hx m) _).mpr (h.seg m))
    · have hne : anchor m ≠ anchor k := fun heq => hmk (h.anchor_inj heq)
      rw [Function.update_of_ne hmk, Function.update_of_ne hne, Function.update_of_ne (hx' m).symm]
      exact (segment_update (h.anchor_notMem k m) _).mpr ((segment_update (hx m) _).mpr (h.seg m))
  disjoint := by
    intro m m' y hy hy'
    by_cases hm : m = k
    · by_cases hm' : m' = k
      · rw [hm, hm']
      · subst hm
        rw [Function.update_self, List.mem_cons] at hy
        rw [Function.update_of_ne hm'] at hy'
        rcases hy with rfl | hy
        · exact absurd hy' (hx m')
        · exact h.disjoint _ _ y hy hy'
    · rw [Function.update_of_ne hm] at hy
      by_cases hm' : m' = k
      · subst hm'
        rw [Function.update_self, List.mem_cons] at hy'
        rcases hy' with rfl | hy'
        · exact absurd hy (hx m)
        · exact h.disjoint _ _ y hy hy'
      · rw [Function.update_of_ne hm'] at hy'
        exact h.disjoint _ _ y hy hy'
  anchor_notMem := by
    intro m m'
    by_cases hm' : m' = k
    · subst hm'
      rw [Function.update_self, List.mem_cons, not_or]
      exact ⟨(hx' m).symm, h.anchor_notMem m m'⟩
    · rw [Function.update_of_ne hm']
      exact h.anchor_notMem m m'

/-- A node is taken out of its list: the link to it is led on. -/
theorem unlink (h : Threads next anchor lists) (hk : lists k = u ++ x :: v) :
    Threads (Function.update next (linkTo (anchor k) u) (next x)) anchor
      (Function.update lists k (u ++ v)) where
  anchor_inj := h.anchor_inj
  seg := by
    intro m
    by_cases hmk : m = k
    · subst hmk
      have hseg := h.seg m
      have hnodup := h.nodup m
      rw [hk] at hseg hnodup
      rw [Function.update_self]
      rcases u.eq_nil_or_concat with rfl | ⟨u, y, rfl⟩
      · have hv : anchor m ∉ v := fun hv =>
          h.anchor_notMem m m (hk ▸ List.mem_append_right _ (List.mem_cons_of_mem x hv))
        rw [linkTo_nil, Function.update_self]
        exact (segment_update hv _).mpr hseg.2
      · rw [List.concat_eq_append] at hk hseg hnodup ⊢
        have hy : y ∈ lists m := by
          rw [hk]
          exact List.mem_append_left _ (List.mem_append_right _ (List.mem_singleton_self y))
        have hne : anchor m ≠ y := fun heq => h.anchor_notMem m m (heq ▸ hy)
        rw [linkTo_concat, Function.update_of_ne hne]
        rw [List.append_assoc, List.singleton_append] at hseg hnodup ⊢
        obtain ⟨-, hcons, hdisj⟩ := List.nodup_append.mp hnodup
        have hnot : y ∉ _ := fun hmem => hdisj y hmem y List.mem_cons_self rfl
        refine segment_unlink hseg hnot fun hmem => ?_
        exact (List.nodup_cons.mp hcons).1 (List.mem_cons_of_mem x hmem)
    · obtain ⟨hmem, hne⟩ := h.linkTo_ne hk hmk
      rw [Function.update_of_ne hmk, Function.update_of_ne hne.symm]
      exact (segment_update hmem _).mpr (h.seg m)
  disjoint := fun m m' y hy hy' =>
    h.disjoint m m' y (mem_update_unlink hk hy) (mem_update_unlink hk hy')
  anchor_notMem := fun m m' hmem => h.anchor_notMem m m' (mem_update_unlink hk hmem)

/-- A node is taken from one list to the front of another, whose anchor is led to it first. -/
theorem move (h : Threads next anchor lists) (hk : lists k = u ++ x :: v) (hm : m ≠ k) :
    Threads
      (Function.update (Function.update (Function.update next x (next (anchor m))) (anchor m)
        (some x)) (linkTo (anchor k) u) (next x))
      anchor (Function.update (Function.update lists k (u ++ v)) m (x :: lists m)) := by
  have hx : x ∈ lists k := hk ▸ List.mem_append_right u List.mem_cons_self
  obtain ⟨-, hne⟩ := h.linkTo_ne hk hm
  have hnx : linkTo (anchor k) u ≠ x := by
    have hnodup := h.nodup k
    rw [hk] at hnodup
    rcases linkTo_eq_or_mem (anchor k) u with heq | hmem
    · exact fun hxe => h.anchor_notMem k k (heq ▸ hxe ▸ hx)
    · exact fun hxe => (List.nodup_append.mp hnodup).2.2 _ (hxe ▸ hmem) x List.mem_cons_self rfl
  have hpush := (h.unlink hk).push (h.notMem_unlink hk)
    (fun m' heq => h.anchor_notMem m' k (heq ▸ hx)) m
  rw [Function.update_of_ne hm, Function.update_of_ne hne.symm] at hpush
  rwa [Function.update_comm hne.symm, Function.update_comm hnx.symm]

end Threads

end CxxPandora.Lib
