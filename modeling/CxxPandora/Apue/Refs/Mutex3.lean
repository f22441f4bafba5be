import CxxPandora.Apue.Refs.System

/-!
# The table of `mutex3.c`

The lock of the table protects the counts as well, so that a reference is given up under one lock
and the count is looked at once. The lock in an object is only taken while the object is set up.
-/

namespace CxxPandora.Apue.Refs.Mutex3

open Lib

variable {ι τ : Type}

/-- What each place means for the table. -/
def view : Pc ι → View ι
  | .allocHash idx fp => { owes := some fp, unlinked := some fp, idx := some idx }
  | .allocLock fp => { hash := true, owes := some fp }
  | .allocUnlockHash fp => { hash := true, lock := some fp, owes := some fp }
  | .allocUnlock fp => { lock := some fp, owes := some fp }
  | .holdHash fp => { borrows := some fp }
  | .findHash _ => {}
  | .unlockHash fp => { hash := true, owes := fp }
  | .releHash fp => { owes := some fp }
  | .releUnlockHashLast fp => { hash := true, unlinked := some fp }
  | .releFree fp => { unlinked := some fp }

/-- How many steps are left at most. -/
def rank : Pc ι → ℕ
  | .allocHash .. => 4
  | .allocLock _ => 3
  | .allocUnlockHash _ => 2
  | .allocUnlock _ => 1
  | .holdHash _ => 2
  | .findHash _ => 2
  | .unlockHash _ => 1
  | .releHash _ => 3
  | .releUnlockHashLast _ => 2
  | .releFree _ => 1

/-- A thread that has the lock of an object has a reference to it in its hands. -/
theorem owes_of_lock {o : Option (Pc ι)} {fp : ι} (h : (viewAt view o).lock = some fp) :
    (viewAt view o).owes = some fp := by
  cases o with
  | none => exact absurd h.symm (Option.some_ne_none fp)
  | some pc =>
    cases pc with
    | allocUnlockHash fp' => exact h
    | allocUnlock fp' => exact h
    | _ => exact absurd h.symm (Option.some_ne_none fp)

variable [DecidableEq ι] [DecidableEq τ] [Fintype τ] {m : Mem ι τ} {refs : τ → ι → ℕ}
  {v : Views ι τ} {lists : Fin NHASH → List (Link ι)} {t : τ}

/-- The last reference is given up, and the object is taken out of the table. -/
theorem steps_releHash (h : Inv m refs v lists) {fp : ι} (hroom : Room m (view (.releHash fp)))
    (hat : v.at t = view (.releHash fp)) (hviews : ∀ t', ∃ o, v.at t' = viewAt view o) :
    Steps next view rank m refs v t (.releHash fp) := by
  rcases h.lockHash_cases hat with ⟨hblocked, hne⟩ | ⟨m₁, hrun₁, hm₁, hinv₁⟩
  · exact Or.inl ⟨by simp only [next, hblocked, Outcome.blocked_bind], rfl, Or.inl ⟨rfl, hne⟩⟩
  obtain ⟨w, hw⟩ : ∃ w, w = { view (.releHash fp) with hash := true } := ⟨_, rfl⟩
  rw [← hw] at hinv₁
  have hat₁ := Views.at_set v t w
  have howes : w.owes = some fp := by rw [hw]; rfl
  have hroom₁ : Room m₁ w := by
    rw [hm₁, hw]
    exact hroom
  have hshare₁ := share_of_owes refs hat₁ howes
  have ha := hinv₁.allocated_of_share hshare₁
  obtain ⟨c, hc⟩ : ∃ c, c = Function.update m₁.f_count fp (m₁.f_count fp + -1) := ⟨_, rfl⟩
  have hadd : m₁.addCount fp (-1) = .ok { m₁ with f_count := c }  :=
    hc ▸ if_pos ⟨ha, hinv₁.dec_fits ha hroom₁⟩
  have hcount : Mem.count fp { m₁ with f_count := c } = .ok (m₁.f_count fp + -1) := by
    have hself : c fp = m₁.f_count fp + -1 := by rw [hc, Function.update_self]
    exact hself ▸ if_pos ha
  by_cases hone : m₁.f_count fp = 1
  · obtain ⟨k, hmem⟩ := hinv₁.exists_mem_of_owes hat₁ howes (by rw [hw]; rfl)
    obtain ⟨fh, f_next, u, w', hrun₂, hk, hlink⟩ := hinv₁.remove_ok c hmem
    -- Another thread with the lock of the object would have a reference to it.
    have hsole : ∀ t', (v.set t w).lock t' = some fp → t' = t := by
      intro t' hlock
      by_contra ht
      obtain ⟨o, ho⟩ := hviews t'
      have hsame : (v.set t w).lock t' = v.lock t' := Function.update_of_ne ht _ _
      have howes' : (viewAt view o).owes = some fp :=
        owes_of_lock ((congrArg View.lock ho).symm.trans (hsame.symm.trans hlock))
      have hsame' : (v.set t w).owes t' = v.owes t' := Function.update_of_ne ht _ _
      have hshare' := @share_of_owes _ _ _ (v.set t w) t' _ _ refs rfl
        (hsame'.trans ((congrArg View.owes ho).trans howes'))
      have hle := hinv₁.share_add_le ha ht
      omega
    have hfield : ∀ {β : Type} (f : View ι → β), f ((v.set t w).at t) = f w := fun f =>
      congrArg f hat₁
    have hinv₂ := hinv₁.remove (t := t) hk hlink hone ((hfield View.owes).trans howes)
      (by rw [show (v.set t w).hash t = w.hash from hfield View.hash, hw])
      (by rw [show (v.set t w).unlinked t = w.unlinked from hfield View.unlinked, hw]; rfl)
      (by rw [show (v.set t w).idx t = w.idx from hfield View.idx, hw]; rfl)
      (by rw [show (v.set t w).seen t = w.seen from hfield View.seen, hw]; rfl) hsole
    rw [hat₁, Views.set_set] at hinv₂
    have hnot : ∀ k', Sum.inr fp ∉ Function.update lists k (u ++ w') k' :=
      hinv₁.threads.notMem_unlink hk
    have hinv₃ := hinv₂.dec (t := t) (a := fp)
      ((congrArg View.owes (Views.at_set v t _)).trans howes) fun k' hk' => absurd hk' (hnot k')
    rw [Views.at_set, Views.set_set] at hinv₃
    have hview : { w with unlinked := some fp, owes := none } = view (.releUnlockHashLast fp) := by
      rw [hw]
      rfl
    have hzero : m₁.f_count fp + -1 = 0 := by omega
    have hinv₄ : Inv { m₁ with f_count := c, fh := fh, f_next := f_next } refs
        (v.set t (view (.releUnlockHashLast fp))) (Function.update lists k (u ++ w')) := by
      rw [hc, ← hview]
      exact hinv₃
    refine .goto (.releUnlockHashLast fp) ?_ hinv₄ (by simp [rank])
    simp only [next, hrun₁, hadd, hcount, hrun₂, Outcome.ok_bind, if_pos hzero]
    rfl
  · obtain ⟨m₂, hrun₂, hinv₂⟩ := hinv₁.dec_ok hat₁ howes hroom₁ hone
    obtain rfl : m₂ = { m₁ with f_count := c } := by
      rw [hadd] at hrun₂
      cases hrun₂
      rfl
    rw [Views.set_set] at hinv₂
    have hzero : m₁.f_count fp + -1 ≠ 0 := by omega
    refine .goto (.unlockHash none) ?_ (hw ▸ hinv₂) (by simp [rank])
    simp only [next, hrun₁, hadd, hcount, Outcome.ok_bind, if_neg hzero]
    rfl

/-- A reference is counted for a thread that has another one. -/
theorem steps_holdHash (h : Inv m refs v lists) {fp : ι} (hroom : Room m (view (.holdHash fp)))
    (hat : v.at t = view (.holdHash fp)) : Steps next view rank m refs v t (.holdHash fp) := by
  rcases h.lockHash_cases hat with ⟨hblocked, hne⟩ | ⟨m₁, hrun₁, rfl, hinv₁⟩
  · exact Or.inl ⟨by simp only [next, hblocked, Outcome.blocked_bind], rfl, Or.inl ⟨rfl, hne⟩⟩
  · obtain ⟨m₂, hrun₂, hinv₂⟩ := hinv₁.inc_borrowed (Views.at_set v t _) (a := fp) rfl hroom rfl
      rfl
    have hinv₃ := hinv₂.note_ok (Views.at_set _ t _) none none
      (fun a ha => absurd ha.symm (Option.some_ne_none a))
      fun a ha => absurd ha.symm (Option.some_ne_none a)
    rw [Views.set_set, Views.set_set] at hinv₃
    exact .goto (.unlockHash (some fp))
      (by simp only [next, hrun₁, hrun₂, Outcome.ok_bind]; rfl) hinv₃ (by simp [rank])

/-- The table is searched, and a reference to what is found is counted. -/
theorem steps_findHash (h : Inv m refs v lists) {id : ℤ} (hroom : Room m (view (.findHash id)))
    (hat : v.at t = view (.findHash id)) : Steps next view rank m refs v t (.findHash id) := by
  rcases h.lockHash_cases hat with ⟨hblocked, hne⟩ | ⟨m₁, hrun₁, rfl, hinv₁⟩
  · exact Or.inl ⟨by simp only [next, hblocked, Outcome.blocked_bind], rfl, Or.inl ⟨rfl, hne⟩⟩
  · obtain ⟨r, hfind, hsome, -⟩ := hinv₁.find_ok id
    cases r with
    | none =>
      exact .goto (.unlockHash none)
        (by simp only [next, hrun₁, hfind, Outcome.ok_bind]; rfl) hinv₁ (by simp [rank])
    | some fp =>
      obtain ⟨ha, hun⟩ := (hinv₁.listed fp).mp ⟨_, (hsome fp rfl).1⟩
      have hmax := (hroom fp ha).2 rfl
      obtain ⟨m₂, hrun₂, hinv₂⟩ := hinv₁.inc_ok (Views.at_set v t _) rfl ha hmax hun
      rw [Views.set_set] at hinv₂
      exact .goto (.unlockHash (some fp))
        (by simp only [next, hrun₁, hfind, hrun₂, Outcome.ok_bind]; rfl) hinv₂ (by simp [rank])

/-- The functions of `mutex3.c` keep the invariant. -/
theorem keeps : Keeps (impl : Impl ι τ (Pc ι)) view rank where
  foo_alloc _ _ := rfl
  foo_hold _ := rfl
  foo_find _ := rfl
  foo_rele _ := rfl
  rank_pos pc := by cases pc <;> simp [rank]
  next m refs v lists t pc h hroom hat hviews := by
    show Steps next view rank m refs v t pc
    -- The places without a lemma of their own release a lock, or free the object.
    cases pc with
    | allocHash idx fp => exact .allocHash (.allocLock fp) h hat rfl rfl rfl (by simp [rank])
    | allocLock fp => exact .allocLock (.allocUnlockHash fp) h hat rfl rfl rfl (by simp [rank])
    | allocUnlockHash fp =>
      obtain ⟨m₁, hrun₁, hinv₁⟩ := h.unlockHash_ok hat rfl rfl
      exact .goto (.allocUnlock fp) (by simp only [next, hrun₁, Outcome.ok_bind]; rfl) hinv₁
        (by simp [rank])
    | allocUnlock fp =>
      obtain ⟨m₁, hrun₁, hinv₁⟩ := h.unlockFoo_ok hat (a := fp) rfl
      exact .ret_some (by simp only [next, hrun₁, Outcome.ok_bind]; rfl) hinv₁
    | holdHash fp => exact steps_holdHash h hroom hat
    | findHash id => exact steps_findHash h hroom hat
    | unlockHash fp =>
      obtain ⟨m₁, hrun₁, hinv₁⟩ := h.unlockHash_ok hat rfl rfl
      cases fp with
      | none => exact .ret_none (by simp only [next, hrun₁, Outcome.ok_bind]; rfl) hinv₁
      | some fp => exact .ret_some (by simp only [next, hrun₁, Outcome.ok_bind]; rfl) hinv₁
    | releHash fp => exact steps_releHash h hroom hat hviews
    | releUnlockHashLast fp =>
      obtain ⟨m₁, hrun₁, hinv₁⟩ := h.unlockHash_ok hat rfl rfl
      exact .goto (.releFree fp) (by simp only [next, hrun₁, Outcome.ok_bind]; rfl) hinv₁
        (by simp [rank])
    | releFree fp =>
      obtain ⟨m₁, hrun₁, hinv₁⟩ := h.free_ok hat (a := fp) rfl (Or.inl rfl) rfl
      exact .ret_none (by simp only [next, hrun₁, Outcome.ok_bind]; rfl) hinv₁

/-- Whatever any number of threads do with references that they have, as long as an `int` can count
them, and in whatever order the threads are scheduled, the table of `mutex3.c` does not go wrong
and keeps its promises. -/
theorem mutex3_sound {es : List (τ × Act ι τ)} {s : Option (Sys ι τ (Pc ι))}
    (hrun : Run impl.step Uses (some Sys.init) es s) : ∃ s', s = some s' ∧ s'.Sound := by
  obtain ⟨s', rfl, hgood⟩ := keeps.run hrun
  exact ⟨s', rfl, hgood.sound⟩

/-- The first thread makes an object, the second one finds it, and both are about to give it up. -/
def bothRelease : List (Bool × Act ℕ Bool) :=
  [(false, .foo_alloc 7 (some 100) true), (false, .go), (false, .go), (false, .go), (false, .go),
    (true, .foo_find 7), (true, .go), (true, .go), (false, .foo_rele 100), (true, .foo_rele 100),
    (false, .go)]

/-- The last one frees the object. -/
theorem mutex3_sound_bothRelease : ∃ s : Sys ℕ Bool (Pc ℕ),
    Run impl.step Uses (some Sys.init)
      (bothRelease ++ [(false, .go), (true, .go), (true, .go), (true, .go)]) (some s) ∧
      s.mem.allocated = ∅ ∧ s.Sound := by
  obtain ⟨s, hrun, hempty⟩ := exists_run (P := impl) (ι := ℕ) (τ := Bool)
    (bothRelease ++ [(false, .go), (true, .go), (true, .go), (true, .go)])
    (p := fun s => s.mem.allocated = ∅) (by decide +kernel)
  obtain ⟨s', hs', hsound⟩ := mutex3_sound hrun
  obtain rfl := Option.some.inj hs'
  exact ⟨s, hrun, of_decide_eq_true hempty, hsound⟩

/-- From every state that any number of threads bring about, all their calls come to an end,
whatever the order of their steps is, after at most four steps of each thread. -/
theorem mutex3_finishes {es : List (τ × Act ι τ)} {s : Sys ι τ (Pc ι)}
    (hrun : Run impl.step Uses (some Sys.init) es (some s)) {ts : List τ}
    {s' : Option (Sys ι τ (Pc ι))} (hgo : Run impl.goes anyStep (some s) ts s') :
    (∀ t, ts.count t ≤ 4) ∧
      ∃ s'', s' = some s'' ∧ ((∀ t, impl.goes s' t = none) → ∀ t, s''.pc t = none) := by
  obtain ⟨s₁, hs₁, hgood⟩ := keeps.run hrun
  obtain rfl := Option.some.inj hs₁
  exact keeps.finishes hgood (fun pc => by cases pc <;> simp [rank]) hgo

/-- Both threads come to the ends of their calls. -/
theorem mutex3_finishes_bothRelease : ∃ s s' : Sys ℕ Bool (Pc ℕ),
    Run impl.step Uses (some Sys.init) bothRelease (some s) ∧
      Run impl.goes anyStep (some s) [false, true, true, true] (some s') ∧
      ∀ t, s'.pc t = none := by
  obtain ⟨s, hrun, hgo⟩ := exists_run (P := impl) (ι := ℕ) (τ := Bool) bothRelease
    (p := fun s => (exec impl.goes (some s) [false, true, true, true]).join.any fun s' =>
      ∀ t, (impl.goes (some s') t).isNone) (by decide +kernel)
  obtain ⟨s', hs', hstuck⟩ := (Option.any_eq_true _ _).mp hgo
  have hgo' : Run impl.goes anyStep (some s) [false, true, true, true] (some s') :=
    .of_exec (Option.join_eq_some_iff.mp hs')
  obtain ⟨-, s'', hs'', hends⟩ := mutex3_finishes hrun hgo'
  obtain rfl := Option.some.inj hs''
  exact ⟨s, s', hrun, hgo', hends fun t => Option.isNone_iff_eq_none.mp
    (of_decide_eq_true hstuck t)⟩

end CxxPandora.Apue.Refs.Mutex3
