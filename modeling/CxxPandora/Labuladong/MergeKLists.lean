import CxxPandora.Lib.LinkedList
import CxxPandora.Lib.Machine
import CxxPandora.Lib.Merging
import Mathlib.Algebra.Order.Ring.Int
import Mathlib.Data.Finset.Max

/-!
# Merging linked lists

`mergeKLists` of `algorithms/labuladong/list/main.cpp`: the nodes of some linked lists are relinked
in place, through a priority queue of one node of each list. The loop is a machine whose label is
the node that the queue gives out, any one that has a least value. `MergeInv` says what the memory
is after the nodes `out`: they are linked from the dummy node on, and what is left of each list is
still linked from its node on the queue. `mergeKLists_spec` holds of every run.
-/

namespace CxxPandora.Labuladong.MergeKLists

open Lib

variable {ι : Type*}

/-! ## The source -/

/-- The memory and the variables of the loop. -/
structure Merge (ι : Type*) where
  /-- The `next_` of each node of the lists. -/
  next : ι → Option ι
  /-- `pq`, in no order. -/
  pq : List ι
  /-- `dummy->next_`. -/
  head : Option ι
  /-- `p`: a node of the lists, or the dummy node. -/
  p : Option ι

/-- Before the loop: the heads that are not null are on the queue. -/
def start (next : ι → Option ι) (lists : List (Option ι)) : Merge ι :=
  ⟨next, lists.reduceOption, none, none⟩

/-- `p->next_ = top`. -/
def Merge.link [DecidableEq ι] (s : Merge ι) (top : ι) : Merge ι :=
  match s.p with
  | none => { s with head := some top }
  | some p => { s with next := Function.update s.next p (some top) }

/-- One pass of the loop, when the queue gives out `top`: a node on it that has a least value. -/
def step [DecidableEq ι] (val : ι → ℤ) : Step (Merge ι) ι := fun s top =>
  if top ∈ s.pq ∧ ∀ x ∈ s.pq, val top ≤ val x then
    some { s.link top with
      pq := ((s.link top).next top).toList ++ s.pq.erase top
      p := some top }
  else none

/-- `mergeKLists` may return the pointer, and leave the links so. -/
def Returns [DecidableEq ι] (val : ι → ℤ) (next : ι → Option ι) (lists : List (Option ι))
    (r : Option ι) (next' : ι → Option ι) : Prop :=
  lists = [] ∧ r = none ∧ next' = next ∨
    lists ≠ [] ∧ ∃ es s, Run (step val) anyStep (start next lists) es s ∧ s.pq = [] ∧
      r = s.head ∧ next' = s.next

/-! ## The invariant -/

/-- The nodes put out are linked from the dummy node up to `p`, and `p` links to a node on the queue
or to none. -/
def Linked (out : List ι) (s : Merge ι) : Prop :=
  out = [] ∧ s.p = none ∧ s.head = none ∨
    ∃ init p, out = init ++ [p] ∧ s.p = some p ∧ Segment s.next s.head init (some p) ∧
      ∀ x, s.next p = some x → x ∈ s.pq

/-- What holds between two passes, when the nodes `out` have been put out and `rests` is left. -/
structure MergeInv (ls rests : List (List ι)) (out : List ι) (s : Merge ι) : Prop where
  /-- The lists are merged up to what is left. -/
  merge : MergeOf ls rests out
  /-- The first node of each list left is on the queue. -/
  queue : s.pq.Perm (heads rests)
  /-- What is left of each list is linked. -/
  linked : ∀ rest ∈ rests, Segment s.next rest.head? rest none
  /-- What has been put out is linked. -/
  out : Linked out s

variable {val : ι → ℤ} {next : ι → Option ι} {lists : List (Option ι)} {ls rests : List (List ι)}
  {out : List ι} {s s' : Merge ι} {top : ι}

/-- A node that is left has not been put out, and is left once. -/
theorem MergeInv.nodup (hnodup : ls.flatten.Nodup) (h : MergeInv ls rests out s) :
    (out ++ rests.flatten).Nodup := h.merge.perm.nodup_iff.mpr hnodup

/-- Each of the lists is linked from its first node on. -/
theorem segment_of_mem (hlists : List.Forall₂ (fun head l => Segment next head l none) lists ls)
    {l : List ι} (hl : l ∈ ls) : Segment next l.head? l none := by
  induction hlists with
  | nil => exact absurd hl List.not_mem_nil
  | cons hhead _ ih =>
    rcases List.mem_cons.mp hl with rfl | hl
    · rw [← hhead.eq_head?]
      exact hhead
    · exact ih hl

/-- Before the loop, nothing has been put out. -/
theorem mergeInv_start (hlists : List.Forall₂ (fun head l => Segment next head l none) lists ls) :
    MergeInv ls ls [] (start next lists) where
  merge := MergeOf.init ls
  queue := by
    unfold start heads
    induction hlists with
    | nil => exact List.Perm.refl _
    | cons hhead _ ih =>
      rw [hhead.eq_head?, List.filterMap_cons]
      cases List.head? _ with
      | none => exact ih
      | some x => exact ih.cons x
  linked _ hrest := segment_of_mem hlists hrest
  out := Or.inl ⟨rfl, rfl, rfl⟩

/-- What a finished run has made of the lists. -/
theorem merged_of_done (h : MergeInv ls rests out s) (hpq : s.pq = []) :
    Segment s.next s.head out none ∧ out.Perm ls.flatten ∧ ∀ l ∈ ls, l.Sublist out := by
  have hqueue := h.queue
  rw [hpq] at hqueue
  refine ⟨?_, h.merge.done (eq_nil_of_heads (List.nil_perm.mp hqueue))⟩
  rcases h.out with ⟨rfl, -, hhead⟩ | ⟨init, p, rfl, -, hsegment, hnext⟩
  · exact hhead
  · refine segment_append.mpr ⟨some p, hsegment, segment_singleton.mpr ?_⟩
    -- The last node can only link to a node on the queue.
    rw [hpq] at hnext
    exact Option.eq_none_iff_forall_ne_some.mpr fun x hx => absurd (hnext x hx) List.not_mem_nil

variable [DecidableEq ι]

/-- Linking `p` to the node given out: what is left stays linked, and what has been put out is
linked up to that node. -/
theorem link_spec (hout : Linked out s) (hnodup : out.Nodup) (top : ι) :
    Segment (s.link top).next (s.link top).head out (some top) ∧
      ∀ (l : List ι) (a : Option ι), (∀ x ∈ out, x ∉ l) → Segment s.next a l none →
        Segment (s.link top).next a l none := by
  rcases hout with ⟨rfl, hp, hhead⟩ | ⟨init, p, rfl, hp, hsegment, -⟩
  · simp only [Merge.link, hp]
    exact ⟨rfl, fun l a _ hl => hl⟩
  · simp only [Merge.link, hp]
    have hpinit : p ∉ init := fun hmem =>
      (List.nodup_append.mp hnodup).2.2 p hmem p (List.mem_singleton_self p) rfl
    refine ⟨segment_append.mpr ⟨some p, (segment_update hpinit _).mpr hsegment,
      segment_singleton.mpr (Function.update_self p (some top) s.next)⟩, fun l a hdisjoint hl => ?_⟩
    exact (segment_update (hdisjoint p (by simp)) _).mpr hl

/-- A pass puts the node out that the queue gave out, and keeps the invariant. -/
theorem step_spec (hnodup : ls.flatten.Nodup) (h : MergeInv ls rests out s)
    (hstep : step val s top = some s') :
    ∃ rests', MergeInv ls rests' (out ++ [top]) s' ∧
      (Ascends (fun a b => val a ≤ val b) rests out →
        Ascends (fun a b => val a ≤ val b) rests' (out ++ [top])) := by
  unfold step at hstep
  split at hstep
  · rename_i hleast
    obtain ⟨htop, hleast⟩ := hleast
    obtain rfl := (Option.some.inj hstep).symm
    obtain ⟨pre, rest, post, rfl⟩ := exists_of_mem_heads (h.queue.mem_iff.mp htop)
    have hall := h.nodup hnodup
    have hfresh : ∀ l ∈ pre ++ (top :: rest) :: post, ∀ x ∈ out, x ∉ l := fun l hl x hx hxl =>
      (List.nodup_append.mp hall).2.2 x hx x (List.mem_flatten.mpr ⟨l, hl, hxl⟩) rfl
    obtain ⟨hlinked, hkeeps⟩ := link_spec h.out (List.nodup_append.mp hall).1 top
    -- What is left of each list is still linked after the change.
    have hrests : ∀ l ∈ pre ++ (top :: rest) :: post, Segment (s.link top).next l.head? l none :=
      fun l hl => hkeeps l _ (hfresh l hl) (h.linked l hl)
    have hrest : Segment (s.link top).next ((s.link top).next top) rest none :=
      (hrests (top :: rest) (by simp)).2
    have hnext : (s.link top).next top = rest.head? := hrest.eq_head?
    refine ⟨pre ++ rest :: post, ⟨h.merge.take, ?_, fun l hl => ?_, Or.inr ⟨out, top, rfl, rfl,
      hlinked, fun x hx => ?_⟩⟩, fun hasc => ?_⟩
    · rw [hnext]
      exact perm_heads h.queue
    · rcases List.mem_append.mp hl with hl | hl
      · exact hrests l (List.mem_append_left _ hl)
      · rcases List.mem_cons.mp hl with rfl | hl
        · rw [← hnext]
          exact hrest
        · exact hrests l (by simp [hl])
    · exact List.mem_append_left _ (Option.mem_toList.mpr hx)
    · refine hasc.take (fun a b c => le_trans) fun l hl y hy => ?_
      exact hleast y (h.queue.mem_iff.mpr (head?_mem_heads hl hy))
  · exact absurd hstep.symm (Option.some_ne_none s')

/-! ## Runs -/

/-- The invariant holds on every run; the nodes put out are those that the queue gave out. -/
theorem mergeInv_of_run (hlists : List.Forall₂ (fun head l => Segment next head l none) lists ls)
    (hnodup : ls.flatten.Nodup) (hrun : Run (step val) anyStep (start next lists) out s) :
    ∃ rests, MergeInv ls rests out s ∧
      ((∀ l ∈ ls, l.Pairwise fun a b => val a ≤ val b) →
        Ascends (fun a b => val a ≤ val b) rests out) := by
  refine hrun.history (I := fun out s => ∃ rests, MergeInv ls rests out s ∧
    ((∀ l ∈ ls, l.Pairwise fun a b => val a ≤ val b) →
      Ascends (fun a b => val a ≤ val b) rests out))
    ⟨ls, mergeInv_start hlists, Ascends.init⟩ ?_
  rintro out s top s' ⟨rests, h, hasc⟩ - hstep
  obtain ⟨rests', h', htake⟩ := step_spec hnodup h hstep
  exact ⟨rests', h', fun hsorted => htake (hasc hsorted)⟩

/-- The loop goes on while the queue is not empty. -/
theorem exists_step (val : ι → ℤ) (s : Merge ι) (hpq : s.pq ≠ []) :
    ∃ top s', step val s top = some s' := by
  obtain ⟨x, hx⟩ := List.exists_mem_of_ne_nil s.pq hpq
  obtain ⟨top, htop, hleast⟩ := s.pq.toFinset.exists_min_image val ⟨x, List.mem_toFinset.mpr hx⟩
  rw [List.mem_toFinset] at htop
  exact ⟨top, _, if_pos ⟨htop, fun y hy => hleast y (List.mem_toFinset.mpr hy)⟩⟩

/-- No run makes more passes than there are nodes. -/
theorem length_le (hlists : List.Forall₂ (fun head l => Segment next head l none) lists ls)
    (hnodup : ls.flatten.Nodup) (hrun : Run (step val) anyStep (start next lists) out s) :
    out.length ≤ ls.flatten.length := by
  obtain ⟨rests, h, -⟩ := mergeInv_of_run hlists hnodup hrun
  have hlen := h.merge.perm.length_eq
  rw [List.length_append] at hlen
  omega

/-- Every run can be finished. -/
theorem exists_finished (hlists : List.Forall₂ (fun head l => Segment next head l none) lists ls)
    (hnodup : ls.flatten.Nodup) (hrun : Run (step val) anyStep (start next lists) out s) :
    ∃ out' s', Run (step val) anyStep (start next lists) out' s' ∧ s'.pq = [] := by
  induction hk : ls.flatten.length - out.length generalizing out s with
  | zero =>
    by_cases hpq : s.pq = []
    · exact ⟨out, s, hrun, hpq⟩
    · obtain ⟨top, s', hstep⟩ := exists_step val s hpq
      have hle := length_le hlists hnodup (hrun.snoc trivial hstep)
      rw [List.length_append, List.length_singleton] at hle
      omega
  | succ k ih =>
    by_cases hpq : s.pq = []
    · exact ⟨out, s, hrun, hpq⟩
    · obtain ⟨top, s', hstep⟩ := exists_step val s hpq
      refine ih (hrun.snoc trivial hstep) ?_
      rw [List.length_append, List.length_singleton]
      omega

/-! ## The result -/

/-- The pointer is to a list that ends, that has every node of the lists once and the nodes of each
list in their order, and that ascends if they do. -/
def Merged (val : ι → ℤ) (ls : List (List ι)) (r : Option ι) (next' : ι → Option ι) : Prop :=
  ∃ out, Segment next' r out none ∧ out.Nodup ∧ out.Perm ls.flatten ∧ (∀ l ∈ ls, l.Sublist out) ∧
    ((∀ l ∈ ls, l.Pairwise fun a b => val a ≤ val b) → out.Pairwise fun a b => val a ≤ val b)

/-- Whatever node of a least value the queue gives out: the loop makes no more passes than there are
nodes, and goes on while the queue is not empty; so it returns, and what it returns is the merged
list. -/
theorem mergeKLists_spec (val : ι → ℤ) (next : ι → Option ι) (lists : List (Option ι))
    (ls : List (List ι))
    (hlists : List.Forall₂ (fun head l => Segment next head l none) lists ls)
    (hdisjoint : ls.Pairwise List.Disjoint) :
    (∀ es s, Run (step val) anyStep (start next lists) es s →
        es.length ≤ ls.flatten.length ∧
          (s.pq ≠ [] → ∃ top s', step val s top = some s')) ∧
      (∃ r next', Returns val next lists r next') ∧
      ∀ r next', Returns val next lists r next' → Merged val ls r next' := by
  have hnodup : ls.flatten.Nodup := by
    refine List.nodup_flatten.mpr ⟨fun l hl => ?_, hdisjoint⟩
    exact (segment_of_mem hlists hl).nodup
  refine ⟨fun es s hrun => ⟨length_le hlists hnodup hrun, exists_step val s⟩, ?_, ?_⟩
  · by_cases hempty : lists = []
    · exact ⟨none, next, Or.inl ⟨hempty, rfl, rfl⟩⟩
    · obtain ⟨es, s, hrun, hpq⟩ := exists_finished hlists hnodup .nil
      exact ⟨s.head, s.next, Or.inr ⟨hempty, es, s, hrun, hpq, rfl, rfl⟩⟩
  · rintro r next' (⟨rfl, rfl, rfl⟩ | ⟨-, es, s, hrun, hpq, rfl, rfl⟩)
    · cases hlists
      exact ⟨[], rfl, List.nodup_nil, List.Perm.refl _, fun l hl => absurd hl List.not_mem_nil,
        fun _ => List.Pairwise.nil⟩
    · obtain ⟨rests, h, hasc⟩ := mergeInv_of_run hlists hnodup hrun
      obtain ⟨hsegment, hperm, hsub⟩ := merged_of_done h hpq
      exact ⟨es, hsegment, hperm.nodup_iff.mpr hnodup, hperm, hsub, fun hsorted =>
        (hasc hsorted).sorted⟩

/-- `mergeKLists_spec` for a list of two nodes, an empty one, and one of one node. -/
theorem mergeKLists_three :
    ∃ r next', Returns (fun n : ℕ => (n : ℤ)) (fun n => if n = 0 then some 2 else none)
      [some 0, none, some 1] r next' ∧
        Merged (fun n : ℕ => (n : ℤ)) [[0, 2], [], [1]] r next' := by
  have hspec := mergeKLists_spec (fun n : ℕ => (n : ℤ)) (fun n => if n = 0 then some 2 else none)
    [some 0, none, some 1] [[0, 2], [], [1]]
    (.cons ⟨rfl, rfl, rfl⟩ (.cons rfl (.cons ⟨rfl, rfl⟩ .nil))) (by simp)
  obtain ⟨-, ⟨r, next', hreturns⟩, hmerged⟩ := hspec
  exact ⟨r, next', hreturns, hmerged r next' hreturns⟩

end CxxPandora.Labuladong.MergeKLists
