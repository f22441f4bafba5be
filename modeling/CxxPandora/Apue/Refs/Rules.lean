import CxxPandora.Apue.Refs.Registry

/-!
# What the operations do

In a memory that is as the views say, an operation on a lock that a place in the functions calls for
is blocked at most, the loops over a chain stay on it and end, and nothing goes wrong; the counts do
not overflow as long as there is `Room`. Each lemma here has the rule of the invariant for its
operation built in.
-/

namespace CxxPandora.Apue.Refs

open Lib

variable {ι τ : Type} [DecidableEq ι] {m : Mem ι τ} {refs : τ → ι → ℕ} {v : Views ι τ}
  {lists : Fin NHASH → List (Link ι)} {t : τ} {a : ι} {w : View ι}

/-- What follows a part of a step that has a result. -/
@[simp] theorem Outcome.ok_bind {α β : Type} (a : α) (f : α → Outcome β) :
    (.ok a >>= f) = f a := rfl

/-- Nothing follows a part of a step that cannot be taken. -/
@[simp] theorem Outcome.blocked_bind {α β : Type} (f : α → Outcome β) :
    (Outcome.blocked >>= f) = .blocked := rfl

/-- The loop of `foo_rele` does not look at the counts. -/
theorem walk_f_count (m : Mem ι τ) (c : ι → ℤ) (a : ι) (n : ℕ) (p : Option ι) :
    Mem.walk { m with f_count := c } a n p = m.walk a n p := by
  induction n generalizing p with
  | zero => cases p <;> rfl
  | succ n ih =>
    cases p with
    | none => rfl
    | some b =>
      unfold Mem.walk
      show (if b ∉ m.allocated then _ else if m.f_next b = some a then _ else
        Mem.walk { m with f_count := c } a n (m.f_next b)) = _
      rw [ih]

/-- What a thread has in its hands is a reference. -/
theorem share_of_owes (refs : τ → ι → ℕ) (hat : v.at t = w) (howes : w.owes = some a) :
    0 < share refs v a t := by
  subst hat
  unfold share
  rw [show v.owes t = some a from howes, if_pos rfl]
  exact Nat.succ_pos _

/-- The counts are numbers of an `int`, also when the thread raises one for a reference that it does
not have yet. -/
def Room (m : Mem ι τ) (w : View ι) : Prop :=
  ∀ a ∈ m.allocated, m.f_count a ≤ intMax ∧ (w.owes = none → m.f_count a < intMax)

namespace Inv

variable [Fintype τ]

/-- Counts are not negative. -/
theorem count_nonneg (h : Inv m refs v lists) (ha : a ∈ m.allocated) : 0 ≤ m.f_count a := by
  rw [h.count a ha]
  exact Int.natCast_nonneg _

/-- One less than the count of an object that a thread has in its hands is a number of an `int`. -/
theorem dec_fits (h : Inv m refs v lists) (ha : a ∈ m.allocated) (hroom : Room m w) :
    intMin ≤ m.f_count a + -1 ∧ m.f_count a + -1 ≤ intMax := by
  have hnonneg := h.count_nonneg ha
  have hmax := (hroom a ha).1
  unfold intMin
  omega

/-- A thread has what it has outside the functions as well. -/
theorem share_of_borrows (h : Inv m refs v lists) (hat : v.at t = w) (hb : w.borrows = some a) :
    0 < share refs v a t := by
  subst hat
  exact Nat.add_pos_left (h.borrows t a hb) _

/-- The count of an object that a thread has in its hands is read. -/
theorem count_ok (h : Inv m refs v lists) (hat : v.at t = w) (howes : w.owes = some a) :
    m.count a = .ok (m.f_count a) :=
  if_pos (h.allocated_of_share (share_of_owes refs hat howes))

/-! ## The chains -/

/-- What is on a chain is an object. -/
theorem exists_of_mem (h : Inv m refs v lists) {k : Fin NHASH} {x : Link ι} (hx : x ∈ lists k) :
    ∃ a, x = Sum.inr a := by
  rcases x with k' | a
  · exact absurd hx (h.threads.anchor_notMem k' k)
  · exact ⟨a, rfl⟩

/-- The link of an object leads to the next one of its chain. -/
theorem f_next_eq (h : Inv m refs v lists) {k : Fin NHASH} {u w : List (Link ι)}
    (hk : lists k = u ++ Sum.inr a :: w) : (m.f_next a).map Sum.inr = w.head? :=
  h.threads.next_eq hk

/-- The table leads to the first object of a chain. -/
theorem fh_eq (h : Inv m refs v lists) (k : Fin NHASH) :
    (m.fh k).map Sum.inr = (lists k).head? := h.threads.next_anchor k

/-- There are no more objects on a chain than are allocated. -/
theorem length_le (h : Inv m refs v lists) (k : Fin NHASH) :
    (lists k).length ≤ m.allocated.card := by
  have hsub : lists k ⊆ m.allocated.toList.map Sum.inr := by
    intro x hx
    rcases x with k' | a
    · exact absurd hx (h.threads.anchor_notMem k' k)
    · exact List.mem_map_of_mem (Finset.mem_toList.mpr (h.allocated_of_mem hx))
  have hle := (h.threads.nodup k).subperm hsub |>.length_le
  rwa [List.length_map, Finset.length_toList] at hle

/-- The loop of `foo_find` ends, with an object of the chain that has the id, or at the end of the
chain when none has it. -/
theorem findLoop_ok (h : Inv m refs v lists) {k : Fin NHASH} (id : ℤ) {u w : List (Link ι)}
    (hk : lists k = u ++ w) {n : ℕ} (hn : w.length ≤ n) {p : Option ι}
    (hp : p.map Sum.inr = w.head?) :
    ∃ r, m.findLoop id n p = .ok r ∧ (∀ a, r = some a → Sum.inr a ∈ w ∧ m.f_id a = id) ∧
      (r = none → ∀ a, Sum.inr a ∈ w → m.f_id a ≠ id) := by
  induction w generalizing u n p with
  | nil =>
    obtain rfl := Option.map_eq_none_iff.mp hp
    refine ⟨none, by unfold Mem.findLoop; rfl, fun a ha => absurd ha.symm (Option.some_ne_none a),
      fun _ a ha => absurd ha List.not_mem_nil⟩
  | cons x w ih =>
    obtain ⟨b, rfl⟩ := h.exists_of_mem (hk ▸ List.mem_append_right u List.mem_cons_self)
    obtain ⟨b', rfl, hb'⟩ := Option.map_eq_some_iff.mp hp
    obtain rfl := Sum.inr.inj hb'
    obtain ⟨n, rfl⟩ := Nat.exists_eq_succ_of_ne_zero (Nat.ne_of_gt (Nat.zero_lt_of_lt hn))
    have ha : b' ∈ m.allocated :=
      h.allocated_of_mem (k := k) (hk ▸ List.mem_append_right u List.mem_cons_self)
    unfold Mem.findLoop
    rw [if_neg (not_not_intro ha)]
    by_cases hid : m.f_id b' = id
    · rw [if_pos hid]
      refine ⟨some b', rfl, fun a hr => ?_, fun hr => absurd hr (Option.some_ne_none b')⟩
      obtain rfl := Option.some.inj hr
      exact ⟨List.mem_cons_self, hid⟩
    · rw [if_neg hid]
      obtain ⟨r, hrun, hsome, hnone⟩ := ih (u := u ++ [Sum.inr b'])
        (by rw [hk, List.append_assoc, List.singleton_append])
        (Nat.le_of_succ_le_succ hn) (h.f_next_eq hk)
      refine ⟨r, hrun, fun a hr => ?_, fun hr a hmem => ?_⟩
      · obtain ⟨hmem, hid'⟩ := hsome a hr
        exact ⟨List.mem_cons_of_mem _ hmem, hid'⟩
      · rcases List.mem_cons.mp hmem with heq | hmem
        · rw [Sum.inr.inj heq]
          exact hid
        · exact hnone hr a hmem

/-- The search of `foo_find`. -/
theorem find_ok (h : Inv m refs v lists) (id : ℤ) :
    ∃ r, m.find id = .ok r ∧
      (∀ a, r = some a → Sum.inr a ∈ lists (HASH id) ∧ m.f_id a = id) ∧
      (r = none → ∀ k a, Sum.inr a ∈ lists k → m.f_id a ≠ id) := by
  obtain ⟨r, hrun, hsome, hnone⟩ := h.findLoop_ok id (u := []) (k := HASH id) rfl
    (h.length_le (HASH id)) (h.fh_eq (HASH id))
  refine ⟨r, hrun, hsome, fun hr k a ha hid => ?_⟩
  have hk : k = HASH id := hid ▸ h.filed k a ha
  exact hnone hr a (hk ▸ ha) hid

/-- The loop of `foo_rele` ends at the object in front of one that is further on in the chain. -/
theorem walk_ok (h : Inv m refs v lists) {k : Fin NHASH} {u w : List (Link ι)} {b : ι}
    (hk : lists k = u ++ Sum.inr b :: w) (ha : Sum.inr a ∈ w) {n : ℕ} (hn : w.length < n) :
    ∃ u' c w', m.walk a n (some b) = .ok c ∧ lists k = u' ++ Sum.inr c :: Sum.inr a :: w' := by
  induction w generalizing u b n with
  | nil => exact absurd ha List.not_mem_nil
  | cons x w ih =>
    obtain ⟨n, rfl⟩ := Nat.exists_eq_succ_of_ne_zero (Nat.ne_of_gt (Nat.zero_lt_of_lt hn))
    have hk' : lists k = (u ++ [Sum.inr b]) ++ x :: w := by
      rw [hk, List.append_assoc, List.singleton_append]
    obtain ⟨b', rfl⟩ := h.exists_of_mem (hk' ▸ List.mem_append_right _ List.mem_cons_self)
    have hb : b ∈ m.allocated :=
      h.allocated_of_mem (k := k) (hk ▸ List.mem_append_right u List.mem_cons_self)
    obtain ⟨b'', hnext, hb''⟩ := Option.map_eq_some_iff.mp (h.f_next_eq hk)
    obtain rfl := Sum.inr.inj hb''
    unfold Mem.walk
    rw [if_neg (not_not_intro hb), hnext]
    by_cases hba : b'' = a
    · subst hba
      exact ⟨u, b, w, if_pos rfl, hk⟩
    · rw [if_neg fun heq => hba (Option.some.inj heq)]
      have ha' : Sum.inr a ∈ w :=
        (List.mem_cons.mp ha).resolve_left fun heq => hba (Sum.inr.inj heq).symm
      exact ih hk' ha' (Nat.lt_of_succ_lt_succ hn)

/-- An object is taken out of its chain, whatever the counts are: the link to it is led on. -/
theorem remove_ok (h : Inv m refs v lists) (c : ι → ℤ) {k : Fin NHASH}
    (hmem : Sum.inr a ∈ lists k) :
    ∃ fh f_next u w, Mem.remove a { m with f_count := c } =
        .ok { m with f_count := c, fh := fh, f_next := f_next } ∧
      lists k = u ++ Sum.inr a :: w ∧
      Mem.link { m with fh := fh, f_next := f_next } =
        Function.update m.link (linkTo (Sum.inl k) u) (m.link (Sum.inr a)) := by
  have ha := h.allocated_of_mem hmem
  have hk := h.filed k a hmem
  have hhead := h.fh_eq k
  unfold Mem.remove
  rw [if_neg (not_not_intro ha)]
  show ∃ fh f_next u w, (if m.fh (HASH (m.f_id a)) = some a then _ else _) = _ ∧ _
  rw [← hk]
  obtain ⟨x, w, hw⟩ := List.exists_cons_of_ne_nil (List.ne_nil_of_mem hmem)
  obtain ⟨b, rfl⟩ := h.exists_of_mem (hw ▸ List.mem_cons_self)
  rw [hw] at hhead
  obtain ⟨b', hfh, hb'⟩ := Option.map_eq_some_iff.mp hhead
  obtain rfl := Sum.inr.inj hb'
  by_cases hba : b' = a
  · -- It is the first one.
    subst hba
    refine ⟨Function.update m.fh k (m.f_next b'), m.f_next, [], w, if_pos hfh, hw, ?_⟩
    rw [linkTo_nil]
    funext x
    rcases x with k' | b
    · show (Function.update m.fh k (m.f_next b') k').map Sum.inr = _
      by_cases hkk : k' = k
      · rw [hkk, Function.update_self, Function.update_self]
        rfl
      · have hne : (Sum.inl k' : Link ι) ≠ Sum.inl k := fun heq => hkk (Sum.inl.inj heq)
        rw [Function.update_of_ne hkk, Function.update_of_ne hne]
        rfl
    · rw [Function.update_of_ne Sum.inr_ne_inl]
      rfl
  · -- It is behind another one.
    have hmem' : Sum.inr a ∈ w := by
      rw [hw] at hmem
      exact (List.mem_cons.mp hmem).resolve_left fun heq => hba (Sum.inr.inj heq).symm
    have hlength := h.length_le k
    rw [hw, List.length_cons] at hlength
    obtain ⟨u, p, w', hwalk, hsplit⟩ := h.walk_ok (u := []) hw hmem' (n := m.allocated.card) hlength
    refine ⟨m.fh, Function.update m.f_next p (m.f_next a), u ++ [Sum.inr p], w', ?_, ?_, ?_⟩
    · rw [if_neg (by rw [hfh]; exact fun heq => hba (Option.some.inj heq))]
      show Outcome.bind (Mem.walk { m with f_count := c } a m.allocated.card (m.fh k)) _ = _
      rw [walk_f_count, hfh, hwalk]
      rfl
    · rw [hsplit, List.append_assoc, List.singleton_append]
    · rw [linkTo_concat]
      funext x
      rcases x with k' | b
      · rw [Function.update_of_ne Sum.inl_ne_inr]
        rfl
      · show (Function.update m.f_next p (m.f_next a) b).map Sum.inr = _
        by_cases hbp : b = p
        · rw [hbp, Function.update_self, Function.update_self]
          rfl
        · have hne : (Sum.inr b : Link ι) ≠ Sum.inr p := fun heq => hbp (Sum.inr.inj heq)
          rw [Function.update_of_ne hbp, Function.update_of_ne hne]
          rfl

variable [DecidableEq τ]

/-! ## The locks -/

/-- `hashlock` is taken when it is free. -/
theorem lockHash_cases (h : Inv m refs v lists) (hat : v.at t = w) :
    m.lockHash t = .blocked ∧ m.hashlock ≠ none ∨
      ∃ m', m.lockHash t = .ok m' ∧ m' = { m with hashlock := some t } ∧
        Inv m' refs (v.set t { w with hash := true }) lists := by
  subst hat
  unfold Mem.lockHash
  by_cases hfree : m.hashlock = none
  · exact Or.inr ⟨_, if_pos hfree, rfl, h.lockHash hfree⟩
  · exact Or.inl ⟨if_neg hfree, hfree⟩

/-- A thread that has `hashlock` releases it. -/
theorem unlockHash_ok (h : Inv m refs v lists) (hat : v.at t = w) (hhash : w.hash = true)
    (hseen : w.seen = none) :
    ∃ m', m.unlockHash t = .ok m' ∧ Inv m' refs (v.set t { w with hash := false }) lists := by
  subst hat
  unfold Mem.unlockHash
  exact ⟨_, if_pos ((h.hash t).mp hhash), h.unlockHash hhash hseen⟩

/-- The lock of an object that nobody else has alone is taken when it is free. -/
theorem lockFoo_cases (h : Inv m refs v lists) (hat : v.at t = w) (hnone : w.lock = none)
    (ha : a ∈ m.allocated) (hun : ∀ t', t' ≠ t → v.unlinked t' ≠ some a) :
    m.lockFoo t a = .blocked ∧ (∃ a ∈ m.allocated, m.f_lock a ≠ none) ∨
      ∃ m', m.lockFoo t a = .ok m' ∧
        m' = { m with f_lock := Function.update m.f_lock a (some t) } ∧
        Inv m' refs (v.set t { w with lock := some a }) lists := by
  subst hat
  unfold Mem.lockFoo
  rw [if_neg (not_not_intro ha)]
  by_cases hfree : m.f_lock a = none
  · exact Or.inr ⟨_, if_pos hfree, rfl, h.lockFoo ha hfree hnone hun⟩
  · exact Or.inl ⟨if_neg hfree, a, ha, hfree⟩

/-- The lock of an object is taken by a thread that has a reference to it in its hands. -/
theorem lockFoo_owed (h : Inv m refs v lists) (hat : v.at t = w) (hnone : w.lock = none)
    (howes : w.owes = some a) :
    m.lockFoo t a = .blocked ∧ (∃ a ∈ m.allocated, m.f_lock a ≠ none) ∨
      ∃ m', m.lockFoo t a = .ok m' ∧
        m' = { m with f_lock := Function.update m.f_lock a (some t) } ∧
        Inv m' refs (v.set t { w with lock := some a }) lists := by
  have hshare : 0 < share refs v a t := share_of_owes refs hat howes
  exact h.lockFoo_cases hat hnone (h.allocated_of_share hshare)
    fun _ => h.unlinked_ne_of_share hshare

/-- A thread that has the lock of an object releases it. -/
theorem unlockFoo_ok (h : Inv m refs v lists) (hat : v.at t = w) (hlock : w.lock = some a) :
    ∃ m', m.unlockFoo t a = .ok m' ∧ Inv m' refs (v.set t { w with lock := none }) lists := by
  subst hat
  unfold Mem.unlockFoo
  exact ⟨_, if_pos ((h.lock t a).mp hlock), h.unlockFoo hlock⟩

/-! ## The counts -/

/-- The count of an object that no thread has alone is raised. -/
theorem inc_ok (h : Inv m refs v lists) (hat : v.at t = w) (hnone : w.owes = none)
    (ha : a ∈ m.allocated) (hmax : m.f_count a < intMax) (hun : ∀ t', v.unlinked t' ≠ some a) :
    ∃ m', m.addCount a 1 = .ok m' ∧ Inv m' refs (v.set t { w with owes := some a }) lists := by
  subst hat
  have hnonneg := h.count_nonneg ha
  have hfits : intMin ≤ m.f_count a + 1 ∧ m.f_count a + 1 ≤ intMax := by
    unfold intMin
    exact ⟨by omega, hmax⟩
  unfold Mem.addCount
  exact ⟨_, if_pos ⟨ha, hfits⟩, h.inc ha hnone hun⟩

/-- The count of an object that a thread has found in the table is raised. -/
theorem inc_seen (h : Inv m refs v lists) (hat : v.at t = w) (hnone : w.owes = none)
    (hroom : Room m w) (hseen : w.seen = some a) :
    ∃ m', m.addCount a 1 = .ok m' ∧ Inv m' refs (v.set t { w with owes := some a }) lists := by
  have hfound : a ∈ m.allocated ∧ ∀ t', v.unlinked t' ≠ some a := by
    subst hat
    exact h.of_seen hseen
  exact h.inc_ok hat hnone hfound.1 ((hroom a hfound.1).2 hnone) hfound.2

/-- The count of an object that a thread has a reference to is raised. -/
theorem inc_borrowed (h : Inv m refs v lists) (hat : v.at t = w) (hnone : w.owes = none)
    (hroom : Room m w) (hun : w.unlinked = none) (hb : w.borrows = some a) :
    ∃ m', m.addCount a 1 = .ok m' ∧ Inv m' refs (v.set t { w with owes := some a }) lists := by
  have hshare := h.share_of_borrows hat hb
  have ha := h.allocated_of_share hshare
  refine h.inc_ok hat hnone ha ((hroom a ha).2 hnone) fun t' => ?_
  by_cases ht : t' = t
  · subst hat ht
    exact fun hun' => Option.some_ne_none a (hun'.symm.trans hun)
  · exact h.unlinked_ne_of_share hshare ht

/-- The count of an object that others have references to is lowered. -/
theorem dec_ok (h : Inv m refs v lists) (hat : v.at t = w) (howes : w.owes = some a)
    (hroom : Room m w) (hpos : m.f_count a ≠ 1) :
    ∃ m', m.addCount a (-1) = .ok m' ∧ Inv m' refs (v.set t { w with owes := none }) lists := by
  have ha := h.allocated_of_share (share_of_owes refs hat howes)
  have hfits := h.dec_fits ha hroom
  subst hat
  unfold Mem.addCount
  exact ⟨_, if_pos ⟨ha, hfits⟩, h.dec howes fun _ _ => hpos⟩

/-! ## The objects -/

/-- A thread puts its object into the table. -/
theorem push_ok (h : Inv m refs v lists) (hat : v.at t = w) {k : Fin NHASH}
    (hun : w.unlinked = some a) (howes : w.owes = some a) (hidx : w.idx = some k) :
    ∃ m', m.push k a = .ok m' ∧ Inv m' refs (v.set t { w with unlinked := none, idx := none })
      (Function.update lists k (Sum.inr a :: lists k)) := by
  subst hat
  unfold Mem.push
  exact ⟨_, if_pos (h.sole t a hun).1, h.push hun howes hidx⟩

/-- A thread frees the object that it has alone. -/
theorem free_ok (h : Inv m refs v lists) (hat : v.at t = w) (hun : w.unlinked = some a)
    (howes : w.owes = none ∨ w.owes = some a) (hlock : w.lock = none) :
    ∃ m', m.free a = .ok m' ∧
      Inv m' refs (v.set t { w with owes := none, unlinked := none }) lists := by
  subst hat
  unfold Mem.free
  exact ⟨_, if_pos ⟨(h.sole t a hun).1, h.f_lock_eq_none hun hlock⟩, h.free hun howes hlock⟩

/-- What a thread has in its hands, and does not have alone, is in the table. -/
theorem exists_mem_of_owes (h : Inv m refs v lists) (hat : v.at t = w) (howes : w.owes = some a)
    (hun : w.unlinked = none) : ∃ k, Sum.inr a ∈ lists k := by
  have hshare : 0 < share refs v a t := share_of_owes refs hat howes
  subst hat
  refine (h.listed a).mpr ⟨h.allocated_of_share hshare, fun t' hun' => ?_⟩
  by_cases ht : t' = t
  · subst ht
    exact Option.some_ne_none a (hun'.symm.trans hun)
  · exact h.unlinked_ne_of_share hshare ht hun'

/-- A thread returns with the reference in its hands. -/
theorem ret_ok (h : Inv m refs v lists) (hat : v.at t = w) (howes : w.owes = some a)
    (hun : w.unlinked = none) :
    Inv m (addRef refs t a) (v.set t { w with owes := none }) lists := by
  subst hat
  exact h.ret howes hun

/-- A thread notes what it has found, or what it has outside the functions. -/
theorem note_ok (h : Inv m refs v lists) (hat : v.at t = w) (seen borrows : Option ι)
    (hseen : ∀ a, seen = some a → w.hash = true ∧ ∃ k, Sum.inr a ∈ lists k)
    (hborrows : ∀ a, borrows = some a → 0 < refs t a) :
    Inv m refs (v.set t { w with seen := seen, borrows := borrows }) lists := by
  subst hat
  exact h.note seen borrows hseen hborrows

end Inv

end CxxPandora.Apue.Refs
