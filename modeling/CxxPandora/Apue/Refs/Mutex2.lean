import CxxPandora.Apue.Refs.System

/-!
# The table of `mutex2.c`

The count of an object is protected by the lock in it. The last reference is given up with both
locks taken, and as `foo_rele` has to let go of the object to take `hashlock` first, it looks at the
count again: in the meantime `foo_find` may have handed out another reference.
-/

namespace CxxPandora.Apue.Refs.Mutex2

open Lib

variable {ι τ : Type}

/-- What each place means for the table. -/
def view : Pc ι → View ι
  | .allocHash idx fp => { owes := some fp, unlinked := some fp, idx := some idx }
  | .allocLock fp => { hash := true, owes := some fp }
  | .allocUnlockHash fp => { hash := true, lock := some fp, owes := some fp }
  | .allocUnlock fp => { lock := some fp, owes := some fp }
  | .holdLock fp => { borrows := some fp }
  | .holdUnlock fp => { lock := some fp, owes := some fp }
  | .findHash _ => {}
  | .findLock fp => { hash := true, seen := some fp }
  | .findUnlock fp => { hash := true, lock := some fp, owes := some fp }
  | .findUnlockHash fp => { hash := true, owes := fp }
  | .releLock fp => { owes := some fp }
  | .releUnlockLast fp => { lock := some fp, owes := some fp }
  | .releHash fp => { owes := some fp }
  | .releLockAgain fp => { hash := true, owes := some fp }
  | .releUnlockAgain fp => { hash := true, lock := some fp }
  | .releUnlockHash => { hash := true }
  | .releUnlockHashLast fp =>
    { hash := true, lock := some fp, owes := some fp, unlinked := some fp }
  | .releUnlockRemoved fp => { lock := some fp, owes := some fp, unlinked := some fp }
  | .releFree fp => { owes := some fp, unlinked := some fp }
  | .releUnlock fp => { lock := some fp }

/-- How many steps are left at most. -/
def rank : Pc ι → ℕ
  | .allocHash .. => 4
  | .allocLock _ => 3
  | .allocUnlockHash _ => 2
  | .allocUnlock _ => 1
  | .holdLock _ => 2
  | .holdUnlock _ => 1
  | .findHash _ => 4
  | .findLock _ => 3
  | .findUnlock _ => 2
  | .findUnlockHash _ => 1
  | .releLock _ => 7
  | .releUnlockLast _ => 6
  | .releHash _ => 5
  | .releLockAgain _ => 4
  | .releUnlockAgain _ => 2
  | .releUnlockHash => 1
  | .releUnlockHashLast _ => 3
  | .releUnlockRemoved _ => 2
  | .releFree _ => 1
  | .releUnlock _ => 1

variable [DecidableEq ι] [DecidableEq τ] [Fintype τ] {m : Mem ι τ} {refs : τ → ι → ℕ}
  {v : Views ι τ} {lists : Fin NHASH → List (Link ι)} {t : τ}

/-! ## `foo_hold` -/

/-- A reference is counted for a thread that has another one. -/
theorem steps_holdLock (h : Inv m refs v lists) {fp : ι} (hroom : Room m (view (.holdLock fp)))
    (hat : v.at t = view (.holdLock fp)) : Steps next view rank m refs v t (.holdLock fp) := by
  have hshare : 0 < share refs v fp t := h.share_of_borrows hat rfl
  have ha := h.allocated_of_share hshare
  have hun : ∀ t', t' ≠ t → v.unlinked t' ≠ some fp := fun _ => h.unlinked_ne_of_share hshare
  rcases h.lockFoo_cases hat rfl ha hun with ⟨hblocked, hne⟩ | ⟨m₁, hrun₁, rfl, hinv₁⟩
  · exact Or.inl ⟨by simp only [next, hblocked, Outcome.blocked_bind], rfl, Or.inr hne⟩
  · obtain ⟨m₂, hrun₂, hinv₂⟩ := hinv₁.inc_borrowed (Views.at_set v t _) (a := fp) rfl hroom rfl
      rfl
    have hinv₃ := hinv₂.note_ok (Views.at_set _ t _) none none
      (fun a ha => absurd ha.symm (Option.some_ne_none a))
      fun a ha => absurd ha.symm (Option.some_ne_none a)
    rw [Views.set_set, Views.set_set] at hinv₃
    exact .goto (.holdUnlock fp) (by simp only [next, hrun₁, hrun₂, Outcome.ok_bind]; rfl)
      hinv₃ (by simp [rank])

/-! ## `foo_find` -/

/-- The table is searched. -/
theorem steps_findHash (h : Inv m refs v lists) {id : ℤ} (hat : v.at t = view (.findHash id)) :
    Steps next view rank m refs v t (.findHash id) := by
  rcases h.lockHash_cases hat with ⟨hblocked, hne⟩ | ⟨m₁, hrun₁, -, hinv₁⟩
  · exact Or.inl ⟨by simp only [next, hblocked, Outcome.blocked_bind], rfl, Or.inl ⟨rfl, hne⟩⟩
  · obtain ⟨r, hfind, hsome, -⟩ := hinv₁.find_ok id
    cases r with
    | none =>
      exact .goto (.findUnlockHash none)
        (by simp only [next, hrun₁, hfind, Outcome.ok_bind]; rfl) hinv₁ (by simp [rank])
    | some fp =>
      have hinv₂ := hinv₁.note_ok (Views.at_set v t _) (some fp) none
        (fun a ha => ⟨rfl, _, Option.some.inj ha ▸ (hsome fp rfl).1⟩)
        fun a ha => absurd ha.symm (Option.some_ne_none a)
      rw [Views.set_set] at hinv₂
      exact .goto (.findLock fp)
        (by simp only [next, hrun₁, hfind, Outcome.ok_bind]; rfl) hinv₂ (by simp [rank])

/-- A reference to the object that has been found is counted. -/
theorem steps_findLock (h : Inv m refs v lists) {fp : ι} (hroom : Room m (view (.findLock fp)))
    (hat : v.at t = view (.findLock fp)) : Steps next view rank m refs v t (.findLock fp) := by
  have hfound : fp ∈ m.allocated ∧ ∀ t', v.unlinked t' ≠ some fp :=
    h.of_seen (t := t) (congrArg View.seen hat)
  rcases h.lockFoo_cases hat rfl hfound.1 fun t' _ => hfound.2 t' with
    ⟨hblocked, hne⟩ | ⟨m₁, hrun₁, rfl, hinv₁⟩
  · exact Or.inl ⟨by simp only [next, hblocked, Outcome.blocked_bind], rfl, Or.inr hne⟩
  · obtain ⟨m₂, hrun₂, hinv₂⟩ := hinv₁.inc_seen (Views.at_set v t _) (a := fp) rfl hroom rfl
    have hinv₃ := hinv₂.note_ok (Views.at_set _ t _) none none
      (fun a ha => absurd ha.symm (Option.some_ne_none a))
      fun a ha => absurd ha.symm (Option.some_ne_none a)
    rw [Views.set_set, Views.set_set] at hinv₃
    exact .goto (.findUnlock fp) (by simp only [next, hrun₁, hrun₂, Outcome.ok_bind]; rfl)
      hinv₃ (by simp [rank])

/-- `foo_find` returns with the reference, if there is one. -/
theorem steps_findUnlockHash (h : Inv m refs v lists) {fp : Option ι}
    (hat : v.at t = view (.findUnlockHash fp)) :
    Steps next view rank m refs v t (.findUnlockHash fp) := by
  obtain ⟨m₁, hrun₁, hinv₁⟩ := h.unlockHash_ok hat rfl rfl
  cases fp with
  | none => exact .ret_none (by simp only [next, hrun₁, Outcome.ok_bind]; rfl) hinv₁
  | some fp => exact .ret_some (by simp only [next, hrun₁, Outcome.ok_bind]; rfl) hinv₁

/-! ## `foo_rele` -/

/-- The count is looked at for the first time. -/
theorem steps_releLock (h : Inv m refs v lists) {fp : ι} (hroom : Room m (view (.releLock fp)))
    (hat : v.at t = view (.releLock fp)) : Steps next view rank m refs v t (.releLock fp) := by
  rcases h.lockFoo_owed hat (a := fp) rfl rfl with ⟨hblocked, hne⟩ | ⟨m₁, hrun₁, rfl, hinv₁⟩
  · exact Or.inl ⟨by simp only [next, hblocked, Outcome.blocked_bind], rfl, Or.inr hne⟩
  have hcount := hinv₁.count_ok (Views.at_set v t _) (a := fp) rfl
  by_cases hone : m.f_count fp = 1
  · exact .goto (.releUnlockLast fp)
      (by simp only [next, hrun₁, hcount, Outcome.ok_bind, if_pos hone]; rfl) hinv₁ (by simp [rank])
  · obtain ⟨m₂, hrun₂, hinv₂⟩ := hinv₁.dec_ok (Views.at_set v t _) (a := fp) rfl hroom hone
    rw [Views.set_set] at hinv₂
    exact .goto (.releUnlock fp)
      (by simp only [next, hrun₁, hcount, hrun₂, Outcome.ok_bind, if_neg hone]; rfl) hinv₂
      (by simp [rank])

/-- `hashlock` is taken. -/
theorem steps_releHash (h : Inv m refs v lists) {fp : ι} (hat : v.at t = view (.releHash fp)) :
    Steps next view rank m refs v t (.releHash fp) := by
  rcases h.lockHash_cases hat with ⟨hblocked, hne⟩ | ⟨m₁, hrun₁, -, hinv₁⟩
  · exact Or.inl ⟨by simp only [next, hblocked, Outcome.blocked_bind], rfl, Or.inl ⟨rfl, hne⟩⟩
  · exact .goto (.releLockAgain fp) (by simp only [next, hrun₁, Outcome.ok_bind]; rfl)
      hinv₁ (by simp [rank])

/-- The count is looked at again, and the object is taken out of the table. -/
theorem steps_releLockAgain (h : Inv m refs v lists) {fp : ι}
    (hroom : Room m (view (.releLockAgain fp))) (hat : v.at t = view (.releLockAgain fp)) :
    Steps next view rank m refs v t (.releLockAgain fp) := by
  rcases h.lockFoo_owed hat (a := fp) rfl rfl with ⟨hblocked, hne⟩ | ⟨m₁, hrun₁, hm₁, hinv₁⟩
  · exact Or.inl ⟨by simp only [next, hblocked, Outcome.blocked_bind], rfl, Or.inr hne⟩
  have hcount := hinv₁.count_ok (Views.at_set v t _) (a := fp) rfl
  have hroom₁ : Room m₁ (view (.releLockAgain fp)) := hm₁ ▸ hroom
  by_cases hone : m₁.f_count fp = 1
  · obtain ⟨k, hmem⟩ := hinv₁.exists_mem_of_owes (Views.at_set v t _) (a := fp) rfl rfl
    obtain ⟨fh, f_next, u, w, hrun₂, hk, hlink⟩ := hinv₁.remove_ok m₁.f_count hmem
    have hfield : ∀ {β : Type} (f : View ι → β), f ((v.set t _).at t) = f _ := fun f =>
      congrArg f (Views.at_set v t { view (.releLockAgain fp) with lock := some fp })
    have hsole : ∀ t', (v.set t { view (.releLockAgain fp) with lock := some fp }).lock t' =
        some fp → t' = t := by
      intro t' ht'
      have hme := ((hinv₁.lock t fp).mp (hfield View.lock)).2
      exact Option.some.inj (((hinv₁.lock t' fp).mp ht').2.symm.trans hme)
    have hinv₂ := hinv₁.remove (t := t) hk hlink hone (hfield View.owes) (hfield View.hash)
      (hfield View.unlinked) (hfield View.idx) (hfield View.seen) hsole
    rw [Views.at_set, Views.set_set] at hinv₂
    refine .goto (.releUnlockHashLast fp) ?_ hinv₂ (by simp [rank])
    have hremove : m₁.remove fp = .ok { m₁ with fh := fh, f_next := f_next } := hrun₂
    simp only [next, hrun₁, hcount, hremove, Outcome.ok_bind, if_neg (not_not_intro hone)]
    rfl
  · obtain ⟨m₂, hrun₂, hinv₂⟩ := hinv₁.dec_ok (Views.at_set v t _) (a := fp) rfl hroom₁ hone
    rw [Views.set_set] at hinv₂
    exact .goto (.releUnlockAgain fp)
      (by simp only [next, hrun₁, hcount, hrun₂, Outcome.ok_bind, if_pos hone]; rfl) hinv₂
      (by simp [rank])

/-! ## All places -/

/-- The functions of `mutex2.c` keep the invariant. -/
theorem keeps : Keeps (impl : Impl ι τ (Pc ι)) view rank where
  foo_alloc _ _ := rfl
  foo_hold _ := rfl
  foo_find _ := rfl
  foo_rele _ := rfl
  rank_pos pc := by cases pc <;> simp [rank]
  next m refs v lists t pc h hroom hat _ := by
    show Steps next view rank m refs v t pc
    -- The places without a lemma of their own release a lock, or free the object.
    cases pc with
    | allocHash idx fp => exact .allocHash (.allocLock fp) h hat rfl rfl rfl (by simp [rank])
    | allocLock fp => exact .allocLock (.allocUnlockHash fp) h hat rfl rfl rfl (by simp [rank])
    | allocUnlockHash fp =>
      obtain ⟨m₁, hrun₁, hinv₁⟩ := h.unlockHash_ok hat rfl rfl
      exact .goto (.allocUnlock fp) (by simp only [next, hrun₁, Outcome.ok_bind]; rfl) hinv₁
        (by simp [rank])
    | allocUnlock fp =>
      obtain ⟨m₁, hrun₁, hinv₁⟩ := h.unlockFoo_ok hat (a := fp) rfl
      exact .ret_some (by simp only [next, hrun₁, Outcome.ok_bind]; rfl) hinv₁
    | holdLock fp => exact steps_holdLock h hroom hat
    | holdUnlock fp =>
      obtain ⟨m₁, hrun₁, hinv₁⟩ := h.unlockFoo_ok hat (a := fp) rfl
      exact .ret_some (by simp only [next, hrun₁, Outcome.ok_bind]; rfl) hinv₁
    | findHash id => exact steps_findHash h hat
    | findLock fp => exact steps_findLock h hroom hat
    | findUnlock fp =>
      obtain ⟨m₁, hrun₁, hinv₁⟩ := h.unlockFoo_ok hat (a := fp) rfl
      exact .goto (.findUnlockHash (some fp))
        (by simp only [next, hrun₁, Outcome.ok_bind]; rfl) hinv₁ (by simp [rank])
    | findUnlockHash fp => exact steps_findUnlockHash h hat
    | releLock fp => exact steps_releLock h hroom hat
    | releUnlockLast fp =>
      obtain ⟨m₁, hrun₁, hinv₁⟩ := h.unlockFoo_ok hat (a := fp) rfl
      exact .goto (.releHash fp) (by simp only [next, hrun₁, Outcome.ok_bind]; rfl) hinv₁
        (by simp [rank])
    | releHash fp => exact steps_releHash h hat
    | releLockAgain fp => exact steps_releLockAgain h hroom hat
    | releUnlockAgain fp =>
      obtain ⟨m₁, hrun₁, hinv₁⟩ := h.unlockFoo_ok hat (a := fp) rfl
      exact .goto .releUnlockHash (by simp only [next, hrun₁, Outcome.ok_bind]; rfl) hinv₁
        (by simp [rank])
    | releUnlockHash =>
      obtain ⟨m₁, hrun₁, hinv₁⟩ := h.unlockHash_ok hat rfl rfl
      exact .ret_none (by simp only [next, hrun₁, Outcome.ok_bind]; rfl) hinv₁
    | releUnlockHashLast fp =>
      obtain ⟨m₁, hrun₁, hinv₁⟩ := h.unlockHash_ok hat rfl rfl
      exact .goto (.releUnlockRemoved fp) (by simp only [next, hrun₁, Outcome.ok_bind]; rfl)
        hinv₁ (by simp [rank])
    | releUnlockRemoved fp =>
      obtain ⟨m₁, hrun₁, hinv₁⟩ := h.unlockFoo_ok hat (a := fp) rfl
      exact .goto (.releFree fp) (by simp only [next, hrun₁, Outcome.ok_bind]; rfl) hinv₁
        (by simp [rank])
    | releFree fp =>
      obtain ⟨m₁, hrun₁, hinv₁⟩ := h.free_ok hat (a := fp) rfl (Or.inr rfl) rfl
      exact .ret_none (by simp only [next, hrun₁, Outcome.ok_bind]; rfl) hinv₁
    | releUnlock fp =>
      obtain ⟨m₁, hrun₁, hinv₁⟩ := h.unlockFoo_ok hat (a := fp) rfl
      exact .ret_none (by simp only [next, hrun₁, Outcome.ok_bind]; rfl) hinv₁

/-- Whatever any number of threads do with references that they have, as long as an `int` can count
them, and in whatever order the threads are scheduled, the table of `mutex2.c` does not go wrong
and keeps its promises. -/
theorem mutex2_sound {es : List (τ × Act ι τ)} {s : Option (Sys ι τ (Pc ι))}
    (hrun : Run impl.step Uses (some Sys.init) es s) : ∃ s', s = some s' ∧ s'.Sound := by
  obtain ⟨s', rfl, hgood⟩ := keeps.run hrun
  exact ⟨s', rfl, hgood.sound⟩

/-- The first thread makes an object and starts to give it up; while it has no lock, the second one
finds the object. -/
def foundMeanwhile : List (Bool × Act ℕ Bool) :=
  [(false, .foo_alloc 7 (some 100) true), (false, .go), (false, .go), (false, .go), (false, .go),
    (false, .foo_rele 100), (false, .go), (false, .go), (true, .foo_find 7), (true, .go),
    (true, .go), (true, .go)]

/-- The count that is looked at again is not 1 any more. -/
theorem mutex2_sound_foundMeanwhile : ∃ s : Sys ℕ Bool (Pc ℕ),
    Run impl.step Uses (some Sys.init)
      (foundMeanwhile ++ [(true, .go), (false, .go), (false, .go), (false, .go), (false, .go)])
      (some s) ∧
      s.mem.f_count 100 = 1 ∧ s.Sound := by
  obtain ⟨s, hrun, hcount⟩ := exists_run (P := impl) (ι := ℕ) (τ := Bool)
    (foundMeanwhile ++ [(true, .go), (false, .go), (false, .go), (false, .go), (false, .go)])
    (p := fun s => s.mem.f_count 100 = 1) (by decide +kernel)
  obtain ⟨s', hs', hsound⟩ := mutex2_sound hrun
  obtain rfl := Option.some.inj hs'
  exact ⟨s, hrun, of_decide_eq_true hcount, hsound⟩

/-- From every state that any number of threads bring about, all their calls come to an end,
whatever the order of their steps is, after at most seven steps of each thread. -/
theorem mutex2_finishes {es : List (τ × Act ι τ)} {s : Sys ι τ (Pc ι)}
    (hrun : Run impl.step Uses (some Sys.init) es (some s)) {ts : List τ}
    {s' : Option (Sys ι τ (Pc ι))} (hgo : Run impl.goes anyStep (some s) ts s') :
    (∀ t, ts.count t ≤ 7) ∧
      ∃ s'', s' = some s'' ∧ ((∀ t, impl.goes s' t = none) → ∀ t, s''.pc t = none) := by
  obtain ⟨s₁, hs₁, hgood⟩ := keeps.run hrun
  obtain rfl := Option.some.inj hs₁
  exact keeps.finishes hgood (fun pc => by cases pc <;> simp [rank]) hgo

/-- Both threads come to the ends of their calls. -/
theorem mutex2_finishes_foundMeanwhile : ∃ s s' : Sys ℕ Bool (Pc ℕ),
    Run impl.step Uses (some Sys.init) foundMeanwhile (some s) ∧
      Run impl.goes anyStep (some s) [true, false, false, false, false] (some s') ∧
      ∀ t, s'.pc t = none := by
  obtain ⟨s, hrun, hgo⟩ := exists_run (P := impl) (ι := ℕ) (τ := Bool) foundMeanwhile
    (p := fun s => (exec impl.goes (some s) [true, false, false, false, false]).join.any fun s' =>
      ∀ t, (impl.goes (some s') t).isNone) (by decide +kernel)
  obtain ⟨s', hs', hstuck⟩ := (Option.any_eq_true _ _).mp hgo
  have hgo' : Run impl.goes anyStep (some s) [true, false, false, false, false] (some s') :=
    .of_exec (Option.join_eq_some_iff.mp hs')
  obtain ⟨-, s'', hs'', hends⟩ := mutex2_finishes hrun hgo'
  obtain rfl := Option.some.inj hs''
  exact ⟨s, s', hrun, hgo', hends fun t => Option.isNone_iff_eq_none.mp
    (of_decide_eq_true hstuck t)⟩

end CxxPandora.Apue.Refs.Mutex2
