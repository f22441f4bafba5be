import CxxPandora.Apue.Refs.Model
import CxxPandora.Lib.Tally
import CxxPandora.Lib.Threads

/-!
# What the two tables have in common

A `View` says what a place in the functions means for the table: which locks the thread has there,
which reference it has in its hands, and which object it has that is not in the table. `Inv` relates
the memory to the views of all threads. There is one rule for each thing that the functions do to
the memory, which says how the view of the thread changes when the invariant is to be kept; what a
step does is then a matter of applying rules, and the two sources have most of them in common.
-/

namespace CxxPandora.Apue.Refs

open Lib

variable {ι τ : Type}

/-! ## Views -/

/-- What a place in the functions means for the table. -/
@[ext] structure View (ι : Type) where
  /-- The thread has `hashlock`. -/
  hash : Bool := false
  /-- The object whose `f_lock` the thread has. -/
  lock : Option ι := none
  /-- The object that a counted reference in the thread's hands leads to. -/
  owes : Option ι := none
  /-- The object that the thread has kept out of the table or taken out of it. -/
  unlinked : Option ι := none
  /-- The chain that it belongs to, when the thread has computed it. -/
  idx : Option (Fin NHASH) := none
  /-- The object that the thread has found in the table. -/
  seen : Option ι := none
  /-- The object of a reference that the thread has outside the functions as well. -/
  borrows : Option ι := none

/-- The views of all threads. -/
@[ext] structure Views (ι τ : Type) where
  hash : τ → Bool
  lock : τ → Option ι
  owes : τ → Option ι
  unlinked : τ → Option ι
  idx : τ → Option (Fin NHASH)
  seen : τ → Option ι
  borrows : τ → Option ι

/-- The view of a thread. -/
def Views.at (v : Views ι τ) (t : τ) : View ι where
  hash := v.hash t
  lock := v.lock t
  owes := v.owes t
  unlinked := v.unlinked t
  idx := v.idx t
  seen := v.seen t
  borrows := v.borrows t

/-- The views of threads that are each somewhere. -/
def Views.of (view : τ → View ι) : Views ι τ where
  hash t := (view t).hash
  lock t := (view t).lock
  owes t := (view t).owes
  unlinked t := (view t).unlinked
  idx t := (view t).idx
  seen t := (view t).seen
  borrows t := (view t).borrows

section Set

variable [DecidableEq τ]

/-- The views after one thread has gone on. -/
def Views.set (v : Views ι τ) (t : τ) (w : View ι) : Views ι τ where
  hash := Function.update v.hash t w.hash
  lock := Function.update v.lock t w.lock
  owes := Function.update v.owes t w.owes
  unlinked := Function.update v.unlinked t w.unlinked
  idx := Function.update v.idx t w.idx
  seen := Function.update v.seen t w.seen
  borrows := Function.update v.borrows t w.borrows

/-- The view of the thread that has gone on. -/
@[simp] theorem Views.at_set (v : Views ι τ) (t : τ) (w : View ι) : (v.set t w).at t = w := by
  simp [Views.at, Views.set]

/-- A thread that goes on twice. -/
@[simp] theorem Views.set_set (v : Views ι τ) (t : τ) (w w' : View ι) :
    (v.set t w).set t w' = v.set t w' := by
  simp [Views.set]

/-- A thread that stays where it is. -/
@[simp] theorem Views.set_at (v : Views ι τ) (t : τ) : v.set t (v.at t) = v := by
  simp [Views.at, Views.set]

/-- The views after a thread has gone somewhere. -/
theorem Views.of_update (view : τ → View ι) (t : τ) (w : View ι) :
    Views.of (Function.update view t w) = (Views.of view).set t w := by
  have hfield : ∀ {β : Type} (f : View ι → β), (fun t' => f (Function.update view t w t')) =
      Function.update (fun t' => f (view t')) t (f w) := fun f => Function.comp_update f view t w
  unfold Views.of Views.set
  simp only [hfield]

end Set

/-! ## The invariant -/

/-- The links of the chains: the heads in the table, and those in the objects. -/
abbrev Link (ι : Type) := Fin NHASH ⊕ ι

/-- Where a link leads. -/
def Mem.link (m : Mem ι τ) : Link ι → Option (Link ι)
  | .inl k => (m.fh k).map .inr
  | .inr a => (m.f_next a).map .inr

variable [DecidableEq ι]

/-- How many references to an object a thread has, in its hands or not. -/
def share (refs : τ → ι → ℕ) (v : Views ι τ) (a : ι) (t : τ) : ℕ :=
  refs t a + if v.owes t = some a then 1 else 0

section References

variable [DecidableEq τ] {refs : τ → ι → ℕ} {v : Views ι τ} {t : τ} {a : ι}

/-- The references when a thread has one more. -/
theorem addRef_apply (refs : τ → ι → ℕ) (t : τ) (a : ι) (t' : τ) (b : ι) :
    addRef refs t a t' b = refs t' b + if t' = t ∧ b = a then 1 else 0 := by
  unfold addRef
  by_cases ht : t' = t
  · subst ht
    rw [Function.update_self]
    by_cases hb : b = a
    · rw [hb, Function.update_self, if_pos ⟨rfl, rfl⟩]
    · rw [Function.update_of_ne hb, if_neg (fun heq => hb heq.2), Nat.add_zero]
  · rw [Function.update_of_ne ht, if_neg (fun heq => ht heq.1), Nat.add_zero]

/-- The references when a thread has one less. -/
theorem dropRef_add (hpos : 0 < refs t a) (t' : τ) (b : ι) :
    dropRef refs t a t' b + (if t' = t ∧ b = a then 1 else 0) = refs t' b := by
  unfold dropRef
  by_cases ht : t' = t
  · subst ht
    rw [Function.update_self]
    by_cases hb : b = a
    · rw [hb, Function.update_self, if_pos ⟨rfl, rfl⟩]
      omega
    · rw [Function.update_of_ne hb, if_neg (fun heq => hb heq.2), Nat.add_zero]
  · rw [Function.update_of_ne ht, if_neg (fun heq => ht heq.1), Nat.add_zero]

/-- A reference that is passed on stays one reference. -/
theorem sum_pass [Fintype τ] (hpos : 0 < refs t a) (t' : τ) (b : ι) :
    ∑ t'', addRef (dropRef refs t a) t' a t'' b = ∑ t'', refs t'' b := by
  have hsum : ∀ t₀ : τ, ∑ t'', (if t'' = t₀ ∧ b = a then 1 else 0 : ℕ) = if b = a then 1 else 0 :=
    fun t₀ => by
      by_cases hb : b = a
      · simp only [hb, and_true, Finset.sum_ite_eq', Finset.mem_univ, if_true]
      · simp only [hb, and_false, if_false, Finset.sum_const_zero]
  calc ∑ t'', addRef (dropRef refs t a) t' a t'' b
      = ∑ t'', dropRef refs t a t'' b + if b = a then 1 else 0 := by
        rw [← hsum t', ← Finset.sum_add_distrib]
        exact Finset.sum_congr rfl fun t'' _ => addRef_apply _ t' a t'' b
    _ = ∑ t'', refs t'' b := by
        rw [← hsum t, ← Finset.sum_add_distrib]
        exact Finset.sum_congr rfl fun t'' _ => dropRef_add hpos t'' b

/-- What another object is counted for does not change with the object in a thread's hands. -/
theorem share_owes_of_ne (refs : τ → ι → ℕ) {b : ι} {o : Option ι}
    (ho : v.owes t = none ∨ v.owes t = some a) (ho' : o = none ∨ o = some a) (hb : b ≠ a) (t' : τ) :
    share refs { v with owes := Function.update v.owes t o } b t' = share refs v b t' := by
  unfold share
  by_cases ht : t' = t
  · subst ht
    have hne : ∀ o : Option ι, o = none ∨ o = some a → o ≠ some b := by
      rintro o (rfl | rfl) heq
      · exact Option.some_ne_none b heq.symm
      · exact hb (Option.some.inj heq).symm
    show refs t' b + (if Function.update v.owes t' o t' = some b then 1 else 0) = _
    rw [Function.update_self, if_neg (hne o ho'), if_neg (hne _ ho)]
  · show refs t' b + (if Function.update v.owes t o t' = some b then 1 else 0) = _
    rw [Function.update_of_ne ht]

/-- What other threads have does not change. -/
theorem share_owes_of_ne' (refs : τ → ι → ℕ) (v : Views ι τ) {b : ι} {o : Option ι} {t' : τ}
    (ht : t' ≠ t) :
    share refs { v with owes := Function.update v.owes t o } b t' = share refs v b t' := by
  unfold share
  show refs t' b + (if Function.update v.owes t o t' = some b then 1 else 0) = _
  rw [Function.update_of_ne ht]

end References

variable [Fintype τ]

/-- The memory is as the views of the threads say, and the lists are the chains. -/
structure Inv (m : Mem ι τ) (refs : τ → ι → ℕ) (v : Views ι τ)
    (lists : Fin NHASH → List (Link ι)) : Prop where
  threads : Threads m.link Sum.inl lists
  listed : ∀ a, (∃ k, Sum.inr a ∈ lists k) ↔ a ∈ m.allocated ∧ ∀ t, v.unlinked t ≠ some a
  filed : ∀ k a, Sum.inr a ∈ lists k → k = HASH (m.f_id a)
  hash : ∀ t, v.hash t = true ↔ m.hashlock = some t
  lock : ∀ t a, v.lock t = some a ↔ a ∈ m.allocated ∧ m.f_lock a = some t
  count : ∀ a ∈ m.allocated, m.f_count a = ∑ t, share refs v a t
  dead : ∀ a ∉ m.allocated, ∀ t, share refs v a t = 0
  pos : ∀ k a, Sum.inr a ∈ lists k → 0 < m.f_count a
  sole : ∀ t a, v.unlinked t = some a → a ∈ m.allocated ∧
    m.f_count a = (if v.owes t = some a then 1 else 0) ∧ ∀ t', v.lock t' = some a → t' = t
  alone : ∀ t t' a, v.unlinked t = some a → v.unlinked t' = some a → t = t'
  idx : ∀ t a k, v.unlinked t = some a → v.idx t = some k → k = HASH (m.f_id a)
  seen : ∀ t a, v.seen t = some a → v.hash t = true ∧ ∃ k, Sum.inr a ∈ lists k
  borrows : ∀ t a, v.borrows t = some a → 0 < refs t a

variable {m : Mem ι τ} {refs : τ → ι → ℕ} {v : Views ι τ} {lists : Fin NHASH → List (Link ι)}
  {t : τ} {a : ι} {w : View ι}

namespace Inv

/-- A thread has no more references than are counted. -/
theorem share_le (h : Inv m refs v lists) (ha : a ∈ m.allocated) (t : τ) :
    (share refs v a t : ℤ) ≤ m.f_count a := by
  rw [h.count a ha]
  exact_mod_cast Finset.single_le_sum (f := fun t => share refs v a t) (fun _ _ => Nat.zero_le _)
    (Finset.mem_univ t)

/-- What a thread has a reference to is allocated. -/
theorem allocated_of_share (h : Inv m refs v lists) (hs : 0 < share refs v a t) :
    a ∈ m.allocated := by
  by_contra ha
  exact absurd (h.dead a ha t) hs.ne'

/-- What a thread has found in the table is allocated, and no thread has it alone. -/
theorem of_seen (h : Inv m refs v lists) (hseen : v.seen t = some a) :
    a ∈ m.allocated ∧ ∀ t', v.unlinked t' ≠ some a := (h.listed a).mp (h.seen t a hseen).2

/-- The objects on the chains are allocated. -/
theorem allocated_of_mem (h : Inv m refs v lists) {k : Fin NHASH} (ha : Sum.inr a ∈ lists k) :
    a ∈ m.allocated := ((h.listed a).mp ⟨k, ha⟩).1

/-- The lock of an object that a thread has alone is not taken, unless by the thread. -/
theorem f_lock_eq_none (h : Inv m refs v lists) (hun : v.unlinked t = some a)
    (hlock : v.lock t = none) : m.f_lock a = none := by
  obtain ⟨ha, -, hsole⟩ := h.sole t a hun
  cases hf : m.f_lock a with
  | none => rfl
  | some t' =>
    have hlock' := (h.lock t' a).mpr ⟨ha, hf⟩
    rw [hsole t' hlock', hlock] at hlock'
    exact absurd hlock'.symm (Option.some_ne_none a)

variable [DecidableEq τ]

/-- Two threads have no more references than are counted. -/
theorem share_add_le (h : Inv m refs v lists) (ha : a ∈ m.allocated) {t' : τ} (hne : t ≠ t') :
    (share refs v a t + share refs v a t' : ℤ) ≤ m.f_count a := by
  have hsum := add_le_sum (fun t => share refs v a t) hne
  rw [h.count a ha]
  exact_mod_cast hsum

/-- What a thread has a reference to is in no other thread's hands alone. -/
theorem unlinked_ne_of_share (h : Inv m refs v lists) (hs : 0 < share refs v a t) {t' : τ}
    (hne : t' ≠ t) : v.unlinked t' ≠ some a := by
  intro hun
  obtain ⟨ha, hcount, -⟩ := h.sole t' a hun
  have hle := h.share_add_le ha hne
  have hown : (if v.owes t' = some a then 1 else 0) ≤ share refs v a t' := Nat.le_add_left _ _
  rw [hcount] at hle
  split_ifs at hown hle <;> omega

/-! ## The locks -/

/-- `hashlock` is taken. -/
theorem lockHash (h : Inv m refs v lists) (hfree : m.hashlock = none) :
    Inv { m with hashlock := some t } refs (v.set t { v.at t with hash := true }) lists := by
  have hv : v.set t { v.at t with hash := true } =
      { v with hash := Function.update v.hash t true } := by simp [Views.set, Views.at]
  rw [hv]
  refine { h with hash := fun t' => ?_, seen := fun t' a hseen => ?_ }
  · by_cases ht : t' = t
    · subst ht
      exact iff_of_true (Function.update_self ..) rfl
    · have hno := h.hash t'
      rw [hfree] at hno
      show Function.update v.hash t true t' = true ↔ some t = some t'
      rw [Function.update_of_ne ht, hno]
      exact iff_of_false (Option.some_ne_none t').symm fun heq => ht (Option.some.inj heq).symm
  · obtain ⟨hhash, hmem⟩ := h.seen t' a hseen
    refine ⟨?_, hmem⟩
    by_cases ht : t' = t
    · subst ht
      exact Function.update_self ..
    · exact (Function.update_of_ne ht _ _).trans hhash

/-- `hashlock` is released. -/
theorem unlockHash (h : Inv m refs v lists) (hhash : v.hash t = true) (hseen : v.seen t = none) :
    Inv { m with hashlock := none } refs (v.set t { v.at t with hash := false }) lists := by
  have hv : v.set t { v.at t with hash := false } =
      { v with hash := Function.update v.hash t false } := by simp [Views.set, Views.at]
  have hlock := (h.hash t).mp hhash
  rw [hv]
  refine { h with hash := fun t' => ?_, seen := fun t' a hs => ?_ }
  · show Function.update v.hash t false t' = true ↔ none = some t'
    refine iff_of_false (fun heq => ?_) (Option.some_ne_none t').symm
    by_cases ht : t' = t
    · subst ht
      rw [Function.update_self] at heq
      exact Bool.false_ne_true heq
    · rw [Function.update_of_ne ht, h.hash t', hlock] at heq
      exact ht (Option.some.inj heq).symm
  · have ht : t' ≠ t := by
      rintro rfl
      exact Option.some_ne_none a (hs.symm.trans hseen)
    obtain ⟨hhash', hmem⟩ := h.seen t' a hs
    exact ⟨(Function.update_of_ne ht _ _).trans hhash', hmem⟩

/-- The lock of an object is taken, by a thread that has a reference to it or has just found it. -/
theorem lockFoo (h : Inv m refs v lists) (ha : a ∈ m.allocated) (hfree : m.f_lock a = none)
    (hnone : v.lock t = none) (hun : ∀ t', t' ≠ t → v.unlinked t' ≠ some a) :
    Inv { m with f_lock := Function.update m.f_lock a (some t) } refs
      (v.set t { v.at t with lock := some a }) lists := by
  have hv : v.set t { v.at t with lock := some a } =
      { v with lock := Function.update v.lock t (some a) } := by simp [Views.set, Views.at]
  rw [hv]
  refine { h with lock := fun t' b => ?_, sole := fun t' b hb => ?_ }
  · show Function.update v.lock t (some a) t' = some b ↔
      b ∈ m.allocated ∧ Function.update m.f_lock a (some t) b = some t'
    have hold := h.lock t' b
    by_cases ht : t' = t
    · subst ht
      rw [hnone] at hold
      rw [Function.update_self]
      by_cases hb : b = a
      · subst hb
        rw [Function.update_self]
        exact iff_of_true rfl ⟨ha, rfl⟩
      · rw [Function.update_of_ne hb, ← hold]
        exact iff_of_false (fun heq => hb (Option.some.inj heq).symm) (Option.some_ne_none b).symm
    · rw [Function.update_of_ne ht, hold]
      by_cases hb : b = a
      · subst hb
        rw [Function.update_self, hfree]
        exact iff_of_false (fun heq => Option.some_ne_none t' heq.2.symm)
          fun heq => ht (Option.some.inj heq.2).symm
      · rw [Function.update_of_ne hb]
  · obtain ⟨hb', hcount, hlock⟩ := h.sole t' b hb
    refine ⟨hb', hcount, fun t'' ht => ?_⟩
    replace ht : Function.update v.lock t (some a) t'' = some b := ht
    by_cases heq : t'' = t
    · subst heq
      rw [Function.update_self] at ht
      by_contra hne
      exact hun t' (Ne.symm hne) ((Option.some.inj ht).symm ▸ hb)
    · rw [Function.update_of_ne heq] at ht
      exact hlock t'' ht

/-- The lock of an object is released. -/
theorem unlockFoo (h : Inv m refs v lists) (hlock : v.lock t = some a) :
    Inv { m with f_lock := Function.update m.f_lock a none } refs
      (v.set t { v.at t with lock := none }) lists := by
  have hv : v.set t { v.at t with lock := none } =
      { v with lock := Function.update v.lock t none } := by simp [Views.set, Views.at]
  have hm := ((h.lock t a).mp hlock).2
  rw [hv]
  refine { h with lock := fun t' b => ?_, sole := fun t' b hb => ?_ }
  · show Function.update v.lock t none t' = some b ↔
      b ∈ m.allocated ∧ Function.update m.f_lock a none b = some t'
    have hold := h.lock t' b
    by_cases hb : b = a
    · subst hb
      rw [Function.update_self]
      refine iff_of_false (fun heq => ?_) fun heq => Option.some_ne_none t' heq.2.symm
      by_cases ht : t' = t
      · subst ht
        rw [Function.update_self] at heq
        exact Option.some_ne_none b heq.symm
      · rw [Function.update_of_ne ht, hold, hm] at heq
        exact ht (Option.some.inj heq.2).symm
    · rw [Function.update_of_ne hb, ← hold]
      by_cases ht : t' = t
      · subst ht
        rw [Function.update_self, hlock]
        exact iff_of_false (Option.some_ne_none b).symm fun heq => hb (Option.some.inj heq).symm
      · rw [Function.update_of_ne ht]
  · obtain ⟨hb', hcount, hsole⟩ := h.sole t' b hb
    refine ⟨hb', hcount, fun t'' ht => hsole t'' ?_⟩
    replace ht : Function.update v.lock t none t'' = some b := ht
    by_cases heq : t'' = t
    · subst heq
      rw [Function.update_self] at ht
      exact absurd ht.symm (Option.some_ne_none b)
    · rwa [Function.update_of_ne heq] at ht

/-! ## The references -/

/-- A reference is counted. -/
theorem inc (h : Inv m refs v lists) (ha : a ∈ m.allocated) (hnone : v.owes t = none)
    (hun : ∀ t', v.unlinked t' ≠ some a) :
    Inv { m with f_count := Function.update m.f_count a (m.f_count a + 1) } refs
      (v.set t { v.at t with owes := some a }) lists := by
  have hv : v.set t { v.at t with owes := some a } =
      { v with owes := Function.update v.owes t (some a) } := by simp [Views.set, Views.at]
  have hself : share refs { v with owes := Function.update v.owes t (some a) } a t =
      share refs v a t + 1 := by
    unfold share
    show refs t a + (if Function.update v.owes t (some a) t = some a then 1 else 0) = _
    rw [Function.update_self, if_pos rfl, hnone, if_neg (Option.some_ne_none a).symm]
  have hother := fun {b : ι} (hb : b ≠ a) =>
    share_owes_of_ne refs (o := some a) (Or.inl hnone) (Or.inr rfl) hb
  rw [hv]
  refine { h with
    count := fun b hb => ?_, dead := fun b hb t' => ?_, pos := fun k b hb => ?_
    sole := fun t' b hb => ?_ }
  · show Function.update m.f_count a (m.f_count a + 1) b = _
    by_cases hba : b = a
    · subst hba
      have hsum := sum_add_eq t fun t' ht' =>
        share_owes_of_ne' refs v (b := b) (o := some b) ht'
      rw [hself] at hsum
      rw [Function.update_self, h.count b ha]
      have hsum' : ∑ t', share refs { v with owes := Function.update v.owes t (some b) } b t' =
          ∑ t', share refs v b t' + 1 := by omega
      rw [hsum']
      push_cast
      rfl
    · rw [Function.update_of_ne hba, h.count b hb]
      exact_mod_cast (Finset.sum_congr rfl fun t' _ => (hother hba t').symm)
  · rw [hother (fun heq => hb (heq ▸ ha)) t']
    exact h.dead b hb t'
  · show 0 < Function.update m.f_count a (m.f_count a + 1) b
    have hpos := h.pos k b hb
    by_cases hba : b = a
    · subst hba
      rw [Function.update_self]
      omega
    · rwa [Function.update_of_ne hba]
  · have hba : b ≠ a := fun heq => hun t' (heq ▸ hb)
    obtain ⟨hb', hcount, hlock⟩ := h.sole t' b hb
    refine ⟨hb', ?_, hlock⟩
    show Function.update m.f_count a (m.f_count a + 1) b =
      if Function.update v.owes t (some a) t' = some b then 1 else 0
    rw [Function.update_of_ne hba, hcount]
    by_cases ht : t' = t
    · subst ht
      rw [Function.update_self, hnone, if_neg (Option.some_ne_none b).symm,
        if_neg fun heq => hba (Option.some.inj heq).symm]
    · rw [Function.update_of_ne ht]

/-- A reference is counted no more: there are others, or the object is in one thread's hands. -/
theorem dec (h : Inv m refs v lists) (howes : v.owes t = some a)
    (hpos : ∀ k, Sum.inr a ∈ lists k → m.f_count a ≠ 1) :
    Inv { m with f_count := Function.update m.f_count a (m.f_count a + -1) } refs
      (v.set t { v.at t with owes := none }) lists := by
  have hv : v.set t { v.at t with owes := none } =
      { v with owes := Function.update v.owes t none } := by simp [Views.set, Views.at]
  have hself : share refs v a t =
      share refs { v with owes := Function.update v.owes t none } a t + 1 := by
    unfold share
    show _ = refs t a + (if Function.update v.owes t none t = some a then 1 else 0) + 1
    rw [Function.update_self, if_neg (Option.some_ne_none a).symm, howes, if_pos rfl]
  have hother := fun {b : ι} (hb : b ≠ a) =>
    share_owes_of_ne refs (o := none) (Or.inr howes) (Or.inl rfl) hb
  have hshare : 0 < share refs v a t := by omega
  have ha := h.allocated_of_share hshare
  rw [hv]
  refine { h with
    count := fun b hb => ?_, dead := fun b hb t' => ?_, pos := fun k b hb => ?_
    sole := fun t' b hb => ?_ }
  · show Function.update m.f_count a (m.f_count a + -1) b = _
    by_cases hba : b = a
    · subst hba
      have hsum := sum_add_eq t fun t' ht' =>
        share_owes_of_ne' refs v (b := b) (o := none) ht'
      have hsum' : ∑ t', share refs v b t' =
          ∑ t', share refs { v with owes := Function.update v.owes t none } b t' + 1 := by omega
      rw [Function.update_self, h.count b ha]
      push_cast [hsum']
      omega
    · rw [Function.update_of_ne hba, h.count b hb]
      exact_mod_cast (Finset.sum_congr rfl fun t' _ => (hother hba t').symm)
  · rw [hother (fun heq => hb (heq ▸ ha)) t']
    exact h.dead b hb t'
  · show 0 < Function.update m.f_count a (m.f_count a + -1) b
    have hpos' := h.pos k b hb
    by_cases hba : b = a
    · subst hba
      have hne := hpos k hb
      rw [Function.update_self]
      omega
    · rwa [Function.update_of_ne hba]
  · obtain ⟨hb', hcount, hlock⟩ := h.sole t' b hb
    refine ⟨hb', ?_, hlock⟩
    show Function.update m.f_count a (m.f_count a + -1) b =
      if Function.update v.owes t none t' = some b then 1 else 0
    by_cases ht : t' = t
    · subst ht
      rw [Function.update_self, if_neg (Option.some_ne_none b).symm]
      by_cases hba : b = a
      · subst hba
        rw [howes, if_pos rfl] at hcount
        rw [Function.update_self, hcount]
        rfl
      · rw [howes, if_neg fun heq => hba (Option.some.inj heq).symm] at hcount
        rw [Function.update_of_ne hba, hcount]
    · have hba : b ≠ a := fun heq => h.unlinked_ne_of_share hshare ht (heq ▸ hb)
      rw [Function.update_of_ne ht, Function.update_of_ne hba, hcount]

/-- References and hands may change when no thread has more or less than before. -/
theorem transfer {refs' : τ → ι → ℕ} {o : Option ι} (h : Inv m refs v lists)
    (hshare : ∀ b t', share refs' { v with owes := Function.update v.owes t o } b t' =
      share refs v b t') (hun : v.unlinked t = none)
    (hborrows : ∀ t' b, v.borrows t' = some b → 0 < refs' t' b) :
    Inv m refs' (v.set t { v.at t with owes := o }) lists := by
  have hv : v.set t { v.at t with owes := o } =
      { v with owes := Function.update v.owes t o } := by simp [Views.set, Views.at]
  rw [hv]
  refine { h with
    count := fun b hb => ?_, dead := fun b hb t' => ?_, sole := fun t' b hb => ?_
    borrows := hborrows }
  · rw [h.count b hb]
    exact_mod_cast (Finset.sum_congr rfl fun t' _ => (hshare b t').symm)
  · rw [hshare]
    exact h.dead b hb t'
  · have ht : t' ≠ t := by
      rintro rfl
      exact Option.some_ne_none b (hb.symm.trans hun)
    have hsole := h.sole t' b hb
    rwa [← Function.update_of_ne ht o v.owes] at hsole

/-- A thread returns with the reference in its hands. -/
theorem ret (h : Inv m refs v lists) (howes : v.owes t = some a) (hun : v.unlinked t = none) :
    Inv m (addRef refs t a) (v.set t { v.at t with owes := none }) lists := by
  have hrefs : ∀ t' b, refs t' b ≤ addRef refs t a t' b := fun t' b =>
    (Nat.le_add_right _ _).trans_eq (addRef_apply refs t a t' b).symm
  refine h.transfer (fun b t' => ?_) hun fun t' b hb => (h.borrows t' b hb).trans_le (hrefs t' b)
  unfold share addRef
  show _ + (if Function.update v.owes t none t' = some b then 1 else 0) = _
  by_cases ht : t' = t
  · subst ht
    rw [Function.update_self, Function.update_self, howes, if_neg (Option.some_ne_none b).symm]
    by_cases hb : b = a
    · rw [hb, Function.update_self, if_pos rfl]
    · rw [Function.update_of_ne hb, if_neg fun heq => hb (Option.some.inj heq).symm]
  · rw [Function.update_of_ne ht, Function.update_of_ne ht]

/-- A thread takes one of its references into its hands. -/
theorem giveUp (h : Inv m refs v lists) (hpos : 0 < refs t a) (howes : v.owes t = none)
    (hun : v.unlinked t = none) (hborrows : v.borrows t = none) :
    Inv m (dropRef refs t a) (v.set t { v.at t with owes := some a }) lists := by
  refine h.transfer (fun b t' => ?_) hun fun t' b hb => ?_
  · unfold share dropRef
    show _ + (if Function.update v.owes t (some a) t' = some b then 1 else 0) = _
    by_cases ht : t' = t
    · subst ht
      rw [Function.update_self, Function.update_self, howes, if_neg (Option.some_ne_none b).symm]
      by_cases hb : b = a
      · rw [hb, Function.update_self, if_pos rfl]
        omega
      · rw [Function.update_of_ne hb, if_neg fun heq => hb (Option.some.inj heq).symm]
    · rw [Function.update_of_ne ht, Function.update_of_ne ht]
  · have ht : t' ≠ t := by
      rintro rfl
      exact Option.some_ne_none b (hb.symm.trans hborrows)
    unfold dropRef
    rw [Function.update_of_ne ht]
    exact h.borrows t' b hb

/-- A thread passes a reference to another one. -/
theorem pass (h : Inv m refs v lists) (hpos : 0 < refs t a) (hborrows : v.borrows t = none)
    (t' : τ) : Inv m (addRef (dropRef refs t a) t' a) v lists := by
  have hsum : ∀ b, ∑ t'', share (addRef (dropRef refs t a) t' a) v b t'' =
      ∑ t'', share refs v b t'' := fun b => by
    unfold share
    rw [Finset.sum_add_distrib, Finset.sum_add_distrib, sum_pass hpos t' b]
  refine { h with
    count := fun b hb => ?_, dead := fun b hb t'' => ?_, borrows := fun t'' b hb => ?_ }
  · rw [h.count b hb, hsum b]
  · -- Nobody has a reference to it, before and after.
    have hzero : ∑ t'', share refs v b t'' = 0 := Finset.sum_eq_zero fun t'' _ => h.dead b hb t''
    exact Finset.sum_eq_zero_iff.mp ((hsum b).trans hzero) t'' (Finset.mem_univ t'')
  · have ht : t'' ≠ t := by
      rintro rfl
      exact Option.some_ne_none b (hb.symm.trans hborrows)
    have hle : refs t'' b ≤ addRef (dropRef refs t a) t' a t'' b := by
      have hdrop := dropRef_add hpos t'' b
      have hadd := addRef_apply (dropRef refs t a) t' a t'' b
      rw [if_neg fun heq => ht heq.1] at hdrop
      omega
    exact (h.borrows t'' b hb).trans_le hle

/-- A thread remembers an object that is in the table, or that it has a reference to elsewhere. -/
theorem note (h : Inv m refs v lists) (seen borrows : Option ι)
    (hseen : ∀ a, seen = some a → v.hash t = true ∧ ∃ k, Sum.inr a ∈ lists k)
    (hborrows : ∀ a, borrows = some a → 0 < refs t a) :
    Inv m refs (v.set t { v.at t with seen := seen, borrows := borrows }) lists := by
  have hv : v.set t { v.at t with seen := seen, borrows := borrows } = { v with
      seen := Function.update v.seen t seen, borrows := Function.update v.borrows t borrows } := by
    simp [Views.set, Views.at]
  rw [hv]
  refine { h with seen := fun t' b hb => ?_, borrows := fun t' b hb => ?_ }
  · replace hb : Function.update v.seen t seen t' = some b := hb
    by_cases ht : t' = t
    · subst ht
      rw [Function.update_self] at hb
      exact hseen b hb
    · rw [Function.update_of_ne ht] at hb
      exact h.seen t' b hb
  · replace hb : Function.update v.borrows t borrows t' = some b := hb
    by_cases ht : t' = t
    · subst ht
      rw [Function.update_self] at hb
      exact hborrows b hb
    · rw [Function.update_of_ne ht] at hb
      exact h.borrows t' b hb

/-! ## The objects -/

/-- Only one thread has an object alone, when it is in no other thread's hands at first. -/
theorem alone_update (h : Inv m refs v lists) {o : Option ι}
    (ho : ∀ a, o = some a → ∀ t', t' ≠ t → v.unlinked t' ≠ some a) (t₁ t₂ : τ) (b : ι)
    (h₁ : Function.update v.unlinked t o t₁ = some b)
    (h₂ : Function.update v.unlinked t o t₂ = some b) : t₁ = t₂ := by
  by_cases ht₁ : t₁ = t
  · by_cases ht₂ : t₂ = t
    · rw [ht₁, ht₂]
    · rw [ht₁, Function.update_self] at h₁
      rw [Function.update_of_ne ht₂] at h₂
      exact absurd h₂ (ho b h₁ t₂ ht₂)
  · rw [Function.update_of_ne ht₁] at h₁
    by_cases ht₂ : t₂ = t
    · rw [ht₂, Function.update_self] at h₂
      exact absurd h₁ (ho b h₂ t₁ ht₁)
    · rw [Function.update_of_ne ht₂] at h₂
      exact h.alone t₁ t₂ b h₁ h₂

/-- `malloc` gives a thread an object. -/
theorem create (h : Inv m refs v lists) (ha : a ∉ m.allocated) (howes : v.owes t = none)
    (hun : v.unlinked t = none) (id : ℤ) :
    Inv (m.create id a) refs
      (v.set t { v.at t with owes := some a, unlinked := some a, idx := some (HASH id) })
      lists := by
  have hv : v.set t { v.at t with owes := some a, unlinked := some a, idx := some (HASH id) } =
      { v with
        owes := Function.update v.owes t (some a)
        unlinked := Function.update v.unlinked t (some a)
        idx := Function.update v.idx t (some (HASH id)) } := by simp [Views.set, Views.at]
  have hne : ∀ {b : ι}, b ∈ m.allocated → b ≠ a := fun hb heq => ha (heq ▸ hb)
  have hnew : ∀ t', share refs { v with owes := Function.update v.owes t (some a) } a t' =
      if t' = t then 1 else 0 := by
    intro t'
    have hzero := h.dead a ha t'
    unfold share at hzero ⊢
    show refs t' a + (if Function.update v.owes t (some a) t' = some a then 1 else 0) = _
    by_cases ht : t' = t
    · subst ht
      rw [Function.update_self, if_pos rfl, if_pos rfl]
      omega
    · rw [Function.update_of_ne ht, if_neg ht]
      exact hzero
  have hother := fun {b : ι} (hb : b ≠ a) =>
    share_owes_of_ne refs (o := some a) (Or.inl howes) (Or.inr rfl) hb
  rw [hv]
  refine { h with
    listed := fun b => ?_, filed := fun k b hb => ?_, lock := fun t' b => ?_
    count := fun b hb => ?_, dead := fun b hb t' => ?_, pos := fun k b hb => ?_
    sole := fun t' b hb => ?_, idx := fun t' b k hb hk => ?_
    alone := h.alone_update fun b hb t' _ hun' =>
      ha (Option.some.inj hb ▸ (h.sole t' b hun').1) }
  · show _ ↔ b ∈ insert a m.allocated ∧ ∀ t', Function.update v.unlinked t (some a) t' ≠ some b
    rw [h.listed b]
    by_cases hba : b = a
    · subst hba
      exact iff_of_false (fun hb => ha hb.1) fun hb => hb.2 t (Function.update_self ..)
    · rw [Finset.mem_insert, or_iff_right hba]
      refine and_congr_right fun _ => forall_congr' fun t' => ?_
      by_cases ht : t' = t
      · subst ht
        rw [Function.update_self, hun]
        exact iff_of_true (Option.some_ne_none b).symm fun heq => hba (Option.some.inj heq).symm
      · rw [Function.update_of_ne ht]
  · show k = HASH (Function.update m.f_id a id b)
    rw [Function.update_of_ne (hne (h.allocated_of_mem hb))]
    exact h.filed k b hb
  · show _ ↔ b ∈ insert a m.allocated ∧ Function.update m.f_lock a none b = some t'
    rw [h.lock t' b]
    by_cases hba : b = a
    · subst hba
      rw [Function.update_self]
      exact iff_of_false (fun hb => ha hb.1) fun hb => Option.some_ne_none t' hb.2.symm
    · rw [Function.update_of_ne hba, Finset.mem_insert, or_iff_right hba]
  · show Function.update m.f_count a 1 b = _
    by_cases hba : b = a
    · subst hba
      rw [Function.update_self]
      show (1 : ℤ) = ((∑ t', share refs { v with owes := _ } b t' : ℕ) : ℤ)
      rw [Finset.sum_congr rfl fun t' _ => hnew t']
      simp only [Finset.sum_ite_eq', Finset.mem_univ, if_true]
      rfl
    · have hb' : b ∈ m.allocated := (Finset.mem_insert.mp hb).resolve_left hba
      rw [Function.update_of_ne hba, h.count b hb']
      exact_mod_cast (Finset.sum_congr rfl fun t' _ => (hother hba t').symm)
  · have hb' : b ∉ m.allocated := fun hmem => hb (Finset.mem_insert_of_mem hmem)
    have hba : b ≠ a := by
      rintro rfl
      exact hb (Finset.mem_insert_self b _)
    exact (hother hba t').trans (h.dead b hb' t')
  · show 0 < Function.update m.f_count a 1 b
    rw [Function.update_of_ne (hne (h.allocated_of_mem hb))]
    exact h.pos k b hb
  · show b ∈ insert a m.allocated ∧ Function.update m.f_count a 1 b =
      (if Function.update v.owes t (some a) t' = some b then 1 else 0) ∧ _
    replace hb : Function.update v.unlinked t (some a) t' = some b := hb
    by_cases ht : t' = t
    · subst ht
      rw [Function.update_self] at hb
      obtain rfl := Option.some.inj hb
      rw [Function.update_self, Function.update_self, if_pos rfl]
      exact ⟨Finset.mem_insert_self a _, rfl, fun t'' ht'' => absurd ((h.lock t'' a).mp ht'').1 ha⟩
    · rw [Function.update_of_ne ht] at hb
      obtain ⟨hb', hcount, hlock⟩ := h.sole t' b hb
      rw [Function.update_of_ne (hne hb'), Function.update_of_ne ht]
      exact ⟨Finset.mem_insert_of_mem hb', hcount, hlock⟩
  · show k = HASH (Function.update m.f_id a id b)
    replace hb : Function.update v.unlinked t (some a) t' = some b := hb
    replace hk : Function.update v.idx t (some (HASH id)) t' = some k := hk
    by_cases ht : t' = t
    · subst ht
      rw [Function.update_self] at hb hk
      obtain rfl := Option.some.inj hb
      rw [Function.update_self]
      exact (Option.some.inj hk).symm
    · rw [Function.update_of_ne ht] at hb hk
      rw [Function.update_of_ne (hne (h.sole t' b hb).1)]
      exact h.idx t' b k hb hk

/-- A thread puts its object into the table. -/
theorem push (h : Inv m refs v lists) {k : Fin NHASH} (hun : v.unlinked t = some a)
    (howes : v.owes t = some a) (hidx : v.idx t = some k) :
    Inv { m with
        f_next := Function.update m.f_next a (m.fh k)
        fh := Function.update m.fh k (some a) } refs
      (v.set t { v.at t with unlinked := none, idx := none })
      (Function.update lists k (Sum.inr a :: lists k)) := by
  have hv : v.set t { v.at t with unlinked := none, idx := none } = { v with
      unlinked := Function.update v.unlinked t none
      idx := Function.update v.idx t none } := by simp [Views.set, Views.at]
  have hnot : ∀ k, Sum.inr a ∉ lists k := fun k hmem => ((h.listed a).mp ⟨k, hmem⟩).2 t hun
  have hlink : Mem.link ({ m with
        f_next := Function.update m.f_next a (m.fh k)
        fh := Function.update m.fh k (some a) } : Mem ι τ) =
      Function.update (Function.update m.link (Sum.inr a) (m.link (Sum.inl k))) (Sum.inl k)
        (some (Sum.inr a)) := by
    funext x
    rcases x with k' | b
    · show (Function.update m.fh k (some a) k').map Sum.inr = _
      by_cases hk : k' = k
      · rw [hk, Function.update_self, Function.update_self]
        rfl
      · have hne : (Sum.inl k' : Link ι) ≠ Sum.inl k := fun heq => hk (Sum.inl.inj heq)
        rw [Function.update_of_ne hk, Function.update_of_ne hne,
          Function.update_of_ne Sum.inl_ne_inr]
        rfl
    · show (Function.update m.f_next a (m.fh k) b).map Sum.inr = _
      rw [Function.update_of_ne Sum.inr_ne_inl]
      by_cases hb : b = a
      · rw [hb, Function.update_self, Function.update_self]
        rfl
      · have hne : (Sum.inr b : Link ι) ≠ Sum.inr a := fun heq => hb (Sum.inr.inj heq)
        rw [Function.update_of_ne hb, Function.update_of_ne hne]
        rfl
  have hmem : ∀ {k' : Fin NHASH} {b : ι}, Sum.inr b ∈ Function.update lists k
      (Sum.inr a :: lists k) k' → b = a ∧ k' = k ∨ Sum.inr b ∈ lists k' := by
    intro k' b hb
    by_cases hk : k' = k
    · subst hk
      rw [Function.update_self] at hb
      rcases List.mem_cons.mp hb with heq | hb
      · exact Or.inl ⟨Sum.inr.inj heq, rfl⟩
      · exact Or.inr hb
    · rw [Function.update_of_ne hk] at hb
      exact Or.inr hb
  obtain ⟨ha, hcount, hlock⟩ := h.sole t a hun
  rw [howes, if_pos rfl] at hcount
  rw [hv]
  refine { h with
    threads := ?_, listed := fun b => ?_, filed := fun k' b hb => ?_, pos := fun k' b hb => ?_
    sole := fun t' b hb => ?_, idx := fun t' b k' hb hk => ?_, seen := fun t' b hb => ?_
    alone := h.alone_update fun b hb => absurd hb.symm (Option.some_ne_none b) }
  · rw [hlink]
    exact h.threads.push hnot (fun _ => Sum.inr_ne_inl) k
  · rw [Threads.exists_mem_push, h.listed b]
    show _ ↔ b ∈ m.allocated ∧ ∀ t', Function.update v.unlinked t none t' ≠ some b
    by_cases hba : b = a
    · subst hba
      refine iff_of_true (Or.inl rfl) ⟨ha, fun t' heq => ?_⟩
      by_cases ht : t' = t
      · rw [ht, Function.update_self] at heq
        exact Option.some_ne_none b heq.symm
      · rw [Function.update_of_ne ht] at heq
        have hshare : 0 < share refs v b t := by
          unfold share
          rw [howes, if_pos rfl]
          omega
        exact h.unlinked_ne_of_share hshare ht heq
    · rw [or_iff_right fun heq => hba (Sum.inr.inj heq)]
      refine and_congr_right fun _ => forall_congr' fun t' => ?_
      by_cases ht : t' = t
      · subst ht
        rw [Function.update_self, hun]
        exact iff_of_true (fun heq => hba (Option.some.inj heq).symm) (Option.some_ne_none b).symm
      · rw [Function.update_of_ne ht]
  · rcases hmem hb with ⟨rfl, rfl⟩ | hb
    · exact h.idx t b k' hun hidx
    · exact h.filed k' b hb
  · rcases hmem hb with ⟨rfl, rfl⟩ | hb
    · show 0 < m.f_count b
      omega
    · exact h.pos k' b hb
  · replace hb : Function.update v.unlinked t none t' = some b := hb
    by_cases ht : t' = t
    · rw [ht, Function.update_self] at hb
      exact absurd hb.symm (Option.some_ne_none b)
    · rw [Function.update_of_ne ht] at hb
      exact h.sole t' b hb
  · replace hb : Function.update v.unlinked t none t' = some b := hb
    replace hk : Function.update v.idx t none t' = some k' := hk
    by_cases ht : t' = t
    · rw [ht, Function.update_self] at hb
      exact absurd hb.symm (Option.some_ne_none b)
    · rw [Function.update_of_ne ht] at hb hk
      exact h.idx t' b k' hb hk
  · obtain ⟨hhash, k', hb'⟩ := h.seen t' b hb
    exact ⟨hhash, (Threads.exists_mem_push _).mpr (Or.inr ⟨k', hb'⟩)⟩

/-- A thread that has the only reference to an object takes it out of the table. -/
theorem remove (h : Inv m refs v lists) {k : Fin NHASH} {u w : List (Link ι)}
    (hk : lists k = u ++ Sum.inr a :: w) {fh : Fin NHASH → Option ι} {f_next : ι → Option ι}
    (hlink : Mem.link { m with fh := fh, f_next := f_next } =
      Function.update m.link (linkTo (Sum.inl k) u) (m.link (Sum.inr a)))
    (hcount : m.f_count a = 1) (howes : v.owes t = some a) (hhash : v.hash t = true)
    (hun : v.unlinked t = none) (hidx : v.idx t = none) (hseen : v.seen t = none)
    (hlock : ∀ t', v.lock t' = some a → t' = t) :
    Inv { m with fh := fh, f_next := f_next } refs (v.set t { v.at t with unlinked := some a })
      (Function.update lists k (u ++ w)) := by
  have hv : v.set t { v.at t with unlinked := some a } =
      { v with unlinked := Function.update v.unlinked t (some a) } := by simp [Views.set, Views.at]
  have ha : a ∈ m.allocated :=
    h.allocated_of_mem (k := k) (hk ▸ List.mem_append_right u List.mem_cons_self)
  have hun' := ((h.listed a).mp ⟨k, hk ▸ List.mem_append_right u List.mem_cons_self⟩).2
  have hcases := fun {y : Link ι} => Threads.exists_mem_unlink hk (y := y)
  rw [hv]
  refine { h with
    threads := ?_, listed := fun b => ?_, filed := fun k' b hb => ?_, pos := fun k' b hb => ?_
    sole := fun t' b hb => ?_, idx := fun t' b k' hb hk' => ?_, seen := fun t' b hb => ?_
    alone := h.alone_update fun b hb t' _ => Option.some.inj hb ▸ hun' t' }
  · rw [hlink]
    exact h.threads.unlink hk
  · show _ ↔ b ∈ m.allocated ∧ ∀ t', Function.update v.unlinked t (some a) t' ≠ some b
    by_cases hba : b = a
    · subst hba
      refine iff_of_false (fun ⟨k', hb⟩ => h.threads.notMem_unlink hk k' hb) fun hb => ?_
      exact hb.2 t (Function.update_self ..)
    · have hsame : (∃ k', Sum.inr b ∈ Function.update lists k (u ++ w) k') ↔
          ∃ k', Sum.inr b ∈ lists k' := by
        rw [hcases, or_iff_right fun heq => hba (Sum.inr.inj heq)]
      rw [hsame, h.listed b]
      refine and_congr_right fun _ => forall_congr' fun t' => ?_
      by_cases ht : t' = t
      · subst ht
        rw [Function.update_self, hun]
        exact iff_of_true (Option.some_ne_none b).symm fun heq => hba (Option.some.inj heq).symm
      · rw [Function.update_of_ne ht]
  · exact h.filed k' b (Threads.mem_update_unlink hk hb)
  · exact h.pos k' b (Threads.mem_update_unlink hk hb)
  · replace hb : Function.update v.unlinked t (some a) t' = some b := hb
    by_cases ht : t' = t
    · subst ht
      rw [Function.update_self] at hb
      obtain rfl := Option.some.inj hb
      refine ⟨ha, ?_, hlock⟩
      show m.f_count a = if v.owes t' = some a then 1 else 0
      rw [howes, if_pos rfl, hcount]
    · rw [Function.update_of_ne ht] at hb
      exact h.sole t' b hb
  · replace hb : Function.update v.unlinked t (some a) t' = some b := hb
    by_cases ht : t' = t
    · rw [ht, hidx] at hk'
      exact absurd hk'.symm (Option.some_ne_none k')
    · rw [Function.update_of_ne ht] at hb
      exact h.idx t' b k' hb hk'
  · -- No other thread looks at the table.
    obtain ⟨hhash', -⟩ := h.seen t' b hb
    have ht : t' = t := Option.some.inj (((h.hash t').mp hhash').symm.trans ((h.hash t).mp hhash))
    rw [ht, hseen] at hb
    exact absurd hb.symm (Option.some_ne_none b)

/-- A thread frees the object that it has alone. -/
theorem free (h : Inv m refs v lists) (hun : v.unlinked t = some a)
    (howes : v.owes t = none ∨ v.owes t = some a) (hlock : v.lock t = none) :
    Inv { m with allocated := m.allocated.erase a } refs
      (v.set t { v.at t with owes := none, unlinked := none }) lists := by
  have hv : v.set t { v.at t with owes := none, unlinked := none } = { v with
      owes := Function.update v.owes t none
      unlinked := Function.update v.unlinked t none } := by simp [Views.set, Views.at]
  obtain ⟨ha, hcount, hsole⟩ := h.sole t a hun
  have hfree := h.f_lock_eq_none hun hlock
  have hnot : ∀ k, Sum.inr a ∉ lists k := fun k hmem => ((h.listed a).mp ⟨k, hmem⟩).2 t hun
  have hother := fun {b : ι} (hb : b ≠ a) =>
    share_owes_of_ne refs (o := none) howes (Or.inl rfl) hb
  -- Nobody has a reference to the object any more.
  have hzero : ∀ t', share refs { v with owes := Function.update v.owes t none } a t' = 0 := by
    intro t'
    by_cases ht : t' = t
    · subst ht
      have hle := h.share_le ha t'
      rw [hcount] at hle
      unfold share at hle ⊢
      show refs t' a + (if Function.update v.owes t' none t' = some a then 1 else 0) = 0
      rw [Function.update_self, if_neg (Option.some_ne_none a).symm]
      split_ifs at hle <;> push_cast at hle <;> omega
    · rw [share_owes_of_ne' refs v ht]
      by_contra hpos
      exact h.unlinked_ne_of_share (Nat.pos_of_ne_zero hpos) (Ne.symm ht) hun
  rw [hv]
  refine { h with
    listed := fun b => ?_, lock := fun t' b => ?_, count := fun b hb => ?_
    dead := fun b hb t' => ?_, sole := fun t' b hb => ?_, idx := fun t' b k hb hk => ?_
    alone := h.alone_update fun b hb => absurd hb.symm (Option.some_ne_none b) }
  · show _ ↔ b ∈ m.allocated.erase a ∧ ∀ t', Function.update v.unlinked t none t' ≠ some b
    by_cases hba : b = a
    · subst hba
      exact iff_of_false (fun ⟨k, hmem⟩ => hnot k hmem) fun hb => Finset.notMem_erase b _ hb.1
    · rw [h.listed b, Finset.mem_erase, and_iff_right hba]
      refine and_congr_right fun _ => forall_congr' fun t' => ?_
      by_cases ht : t' = t
      · subst ht
        rw [Function.update_self, hun]
        exact iff_of_true (fun heq => hba (Option.some.inj heq).symm) (Option.some_ne_none b).symm
      · rw [Function.update_of_ne ht]
  · show _ ↔ b ∈ m.allocated.erase a ∧ m.f_lock b = some t'
    rw [h.lock t' b]
    by_cases hba : b = a
    · subst hba
      rw [hfree]
      exact iff_of_false (fun hb => Option.some_ne_none t' hb.2.symm)
        fun hb => Option.some_ne_none t' hb.2.symm
    · rw [Finset.mem_erase, and_iff_right hba]
  · obtain ⟨hba, hb'⟩ := Finset.mem_erase.mp hb
    show m.f_count b = _
    rw [h.count b hb']
    exact_mod_cast (Finset.sum_congr rfl fun t' _ => (hother hba t').symm)
  · show share refs { v with owes := _ } b t' = 0
    by_cases hba : b = a
    · rw [hba]
      exact hzero t'
    · rw [hother hba]
      exact h.dead b (fun hmem => hb (Finset.mem_erase.mpr ⟨hba, hmem⟩)) t'
  · replace hb : Function.update v.unlinked t none t' = some b := hb
    show b ∈ m.allocated.erase a ∧ m.f_count b =
      (if Function.update v.owes t none t' = some b then 1 else 0) ∧ _
    by_cases ht : t' = t
    · rw [ht, Function.update_self] at hb
      exact absurd hb.symm (Option.some_ne_none b)
    · rw [Function.update_of_ne ht] at hb ⊢
      obtain ⟨hb', hcount', hlock'⟩ := h.sole t' b hb
      refine ⟨Finset.mem_erase.mpr ⟨?_, hb'⟩, hcount', hlock'⟩
      rintro rfl
      exact ht (h.alone t' t b hb hun)
  · replace hb : Function.update v.unlinked t none t' = some b := hb
    by_cases ht : t' = t
    · rw [ht, Function.update_self] at hb
      exact absurd hb.symm (Option.some_ne_none b)
    · rw [Function.update_of_ne ht] at hb
      exact h.idx t' b k hb hk

end Inv

end CxxPandora.Apue.Refs
