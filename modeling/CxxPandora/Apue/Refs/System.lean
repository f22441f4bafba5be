import CxxPandora.Apue.Refs.Rules

/-!
# Any number of threads

A table keeps its promises when each step from each place keeps the invariant (`Keeps`). Then no run
of any number of threads goes wrong (`Keeps.run`). The counts do not overflow, as a thread in a
function may turn out to have one more reference, and no call begins without room for that
(`Sys.load`). There is always a thread that can go on: a thread that has the lock of an object waits
for nothing, and one that has `hashlock` waits for the lock of an object at most
(`Keeps.exists_go`). As each step of a call brings it nearer to its end, all calls come to an end
whatever the order of the steps (`Keeps.finishes`).
-/

namespace CxxPandora.Apue.Refs

open Lib

variable {ι τ Pc : Type} {view : Pc → View ι} {s : Sys ι τ Pc} {t : τ}

/-- The view of a thread that is somewhere in the functions, or in none of them. -/
def viewAt (view : Pc → View ι) : Option Pc → View ι
  | none => {}
  | some pc => view pc

/-- The views of the threads of a system. -/
def Sys.views (view : Pc → View ι) (s : Sys ι τ Pc) : Views ι τ :=
  Views.of fun t => viewAt view (s.pc t)

/-- The view of a thread. -/
theorem Sys.views_at (s : Sys ι τ Pc) (t : τ) : (s.views view).at t = viewAt view (s.pc t) := rfl

section

variable [DecidableEq τ]

/-- The views after a thread has gone somewhere. -/
theorem views_update {s' : Sys ι τ Pc} {o : Option Pc} (h : s'.pc = Function.update s.pc t o) :
    s'.views view = (s.views view).set t (viewAt view o) := by
  have hview : (fun t' => viewAt view (s'.pc t')) =
      Function.update (fun t' => viewAt view (s.pc t')) t (viewAt view o) := by
    rw [h]
    exact Function.comp_update (viewAt view) s.pc t o
  unfold Sys.views
  rw [hview, Views.of_update]

variable [Fintype τ]

/-- What is counted with an object grows by one at most when a thread calls a function. -/
theorem load_call_le {s' : Sys ι τ Pc} (hpc : s'.pc = s.pc)
    (hrefs : ∀ t fp, s'.refs t fp ≤ s.refs t fp) (pc : Pc) (fp : ι) :
    (s'.call t pc).load fp ≤ s.load fp + 1 := by
  have hle : ∀ t', s'.refs t' fp + (Function.update s'.pc t (some pc) t').isSome.toNat ≤
      s.refs t' fp + (s.pc t').isSome.toNat + if t' = t then 1 else 0 := by
    intro t'
    have hfewer := hrefs t' fp
    rw [hpc]
    by_cases ht : t' = t
    · subst ht
      rw [Function.update_self, if_pos rfl]
      show _ + 1 ≤ _
      omega
    · rw [Function.update_of_ne ht, if_neg ht]
      omega
  calc (s'.call t pc).load fp
      ≤ ∑ t', (s.refs t' fp + (s.pc t').isSome.toNat + if t' = t then 1 else 0) :=
        Finset.sum_le_sum fun t' _ => hle t'
    _ = s.load fp + 1 := by
        rw [Finset.sum_add_distrib, Finset.sum_ite_eq', if_pos (Finset.mem_univ t)]
        rfl

variable [DecidableEq ι]

/-- Whether there is room for one more thread in the functions. -/
instance instDecidableHasRoom (s : Sys ι τ Pc) : Decidable s.HasRoom :=
  inferInstanceAs (Decidable (_ ∧ _))

/-- Whether a thread has the reference that it is about to use, and there is room. -/
instance instDecidableUses : ∀ (s : Option (Sys ι τ Pc)) (e : τ × Act ι τ), Decidable (Uses s e)
  | none, _ => .isTrue trivial
  | some s, (t, .foo_hold fp) => inferInstanceAs (Decidable (0 < s.refs t fp ∧ s.HasRoom))
  | some s, (t, .foo_rele fp) => inferInstanceAs (Decidable (0 < s.refs t fp ∧ s.HasRoom))
  | some s, (t, .pass fp _) => inferInstanceAs (Decidable (0 < s.refs t fp))
  | some s, (_, .foo_alloc _ _ _) => inferInstanceAs (Decidable s.HasRoom)
  | some s, (_, .foo_find _) => inferInstanceAs (Decidable s.HasRoom)
  | some _, (_, .go) => .isTrue trivial

/-- A run of the system that has been computed, with what has been found out about its end. -/
theorem exists_run {P : Impl ι τ Pc} (es : List (τ × Act ι τ)) {p : Sys ι τ Pc → Bool}
    (h : (exec (restrict P.step Uses) (some Sys.init) es).join.any p = true) :
    ∃ s, Run P.step Uses (some Sys.init) es (some s) ∧ p s = true := by
  obtain ⟨s, hs, hp⟩ := (Option.any_eq_true p _).mp h
  exact ⟨s, .of_exec_restrict (Option.join_eq_some_iff.mp hs), hp⟩

end

variable [DecidableEq ι]

/-- What a thread has is no more than its references, and one more in a function. -/
theorem share_le_load (s : Sys ι τ Pc) (fp : ι) (t : τ) :
    share s.refs (s.views view) fp t ≤ s.refs t fp + (s.pc t).isSome.toNat := by
  refine Nat.add_le_add_left ?_ _
  show (if (viewAt view (s.pc t)).owes = some fp then 1 else 0) ≤ _
  cases s.pc t with
  | none => exact (if_neg (Option.some_ne_none fp).symm).le
  | some pc =>
    show (if (view pc).owes = some fp then 1 else 0) ≤ 1
    split_ifs <;> omega

variable [Fintype τ]

/-- The memory of the system is as the views of its threads say, and the counts cannot overflow. -/
structure Sys.Good (view : Pc → View ι) (s : Sys ι τ Pc) : Prop where
  inv : ∃ lists, Inv s.mem s.refs (s.views view) lists
  load : ∀ fp, s.load fp ≤ intMax

/-- The empty table. -/
theorem good_init : (Sys.init : Sys ι τ Pc).Good view := by
  refine ⟨⟨fun _ => [], ?_⟩, fun fp => by simp [Sys.load, Sys.init, intMax]⟩
  have hnone : ∀ {β : Type} {b : β}, none = some b → False := fun h => Option.some_ne_none _ h.symm
  exact {
    threads := {
      seg := fun _ => rfl
      disjoint := fun _ _ _ hx => absurd hx List.not_mem_nil
      anchor_inj := Sum.inl_injective
      anchor_notMem := fun _ _ => List.not_mem_nil }
    listed := fun a => iff_of_false (fun ⟨_, ha⟩ => List.not_mem_nil ha)
      fun ha => Finset.notMem_empty a ha.1
    filed := fun _ _ ha => absurd ha List.not_mem_nil
    hash := fun t => iff_of_false Bool.false_ne_true (Option.some_ne_none t).symm
    lock := fun t a => iff_of_false (Option.some_ne_none a).symm
      fun ha => Finset.notMem_empty a ha.1
    count := fun a ha => absurd ha (Finset.notMem_empty a)
    dead := fun _ _ _ => rfl
    pos := fun _ _ ha => absurd ha List.not_mem_nil
    sole := fun _ _ ha => (hnone ha).elim
    alone := fun _ _ _ ha => (hnone ha).elim
    idx := fun _ _ _ ha => (hnone ha).elim
    seen := fun _ _ ha => (hnone ha).elim
    borrows := fun _ _ ha => (hnone ha).elim }

/-! ## The counts do not overflow -/

/-- When there is room for one more thread, an `int` can count one more reference to each object. -/
theorem load_lt_of_hasRoom {lists : Fin NHASH → List (Link ι)}
    (hinv : Inv s.mem s.refs (s.views view) lists) (hroom : s.HasRoom) (fp : ι) :
    s.load fp < intMax := by
  by_cases hfp : fp ∈ s.mem.allocated
  · exact hroom.2 fp hfp
  · -- Nobody has a reference to what is not allocated.
    have hload : s.load fp = s.inside := Finset.sum_congr rfl fun t _ => by
      have hshare := hinv.dead fp hfp t
      unfold share at hshare
      omega
    rw [hload]
    exact hroom.1

/-- A thread in a function has room for what it does to a count. -/
theorem Sys.Good.room (h : s.Good view) {pc : Pc} (hpc : s.pc t = some pc) :
    Room s.mem (view pc) := by
  obtain ⟨⟨lists, hinv⟩, hload⟩ := h
  intro a ha
  have hle : ∀ t' ∈ Finset.univ, share s.refs (s.views view) a t' ≤
      s.refs t' a + (s.pc t').isSome.toNat := fun t' _ => share_le_load s a t'
  have hcount := hinv.count a ha
  have hmax := hload a
  refine ⟨?_, fun howes => ?_⟩
  · have hsum : ∑ t', share s.refs (s.views view) a t' ≤ s.load a := Finset.sum_le_sum hle
    omega
  · -- It does not have the reference yet that it may come to have.
    have hlt : share s.refs (s.views view) a t < s.refs t a + (s.pc t).isSome.toNat := by
      have howes' : (s.views view).owes t = none := by
        rw [← howes]
        exact congrArg (fun o => (viewAt view o).owes) hpc
      unfold share
      rw [howes', hpc, if_neg (Option.some_ne_none a).symm]
      exact Nat.lt_succ_self _
    have hsum : ∑ t', share s.refs (s.views view) a t' < s.load a :=
      Finset.sum_lt_sum hle ⟨t, Finset.mem_univ t, hlt⟩
    omega

/-- What is counted with an object does not grow when a thread goes on or returns. -/
theorem load_goOn_le [DecidableEq τ] {pc : Pc} (hpc : s.pc t = some pc) (m : Mem ι τ)
    (n : Next ι Pc) (fp : ι) : (s.goOn t m n).load fp ≤ s.load fp := by
  refine Finset.sum_le_sum fun t' _ => ?_
  by_cases ht : t' = t
  · subst ht
    rw [hpc]
    rcases n with pc' | _ | a
    · show s.refs t' fp + (Function.update s.pc t' (some pc') t').isSome.toNat ≤ _
      rw [Function.update_self]
      exact le_rfl
    · show s.refs t' fp + (Function.update s.pc t' none t').isSome.toNat ≤ _
      rw [Function.update_self]
      exact Nat.le_succ _
    · show addRef s.refs t' a t' fp + (Function.update s.pc t' none t').isSome.toNat ≤ _
      rw [Function.update_self, addRef_apply]
      show s.refs t' fp + (if t' = t' ∧ fp = a then 1 else 0) + 0 ≤ s.refs t' fp + 1
      split_ifs <;> omega
  · rcases n with pc' | _ | a
    · show s.refs t' fp + (Function.update s.pc t (some pc') t').isSome.toNat ≤ _
      rw [Function.update_of_ne ht]
    · show s.refs t' fp + (Function.update s.pc t none t').isSome.toNat ≤ _
      rw [Function.update_of_ne ht]
    · show addRef s.refs t a t' fp + (Function.update s.pc t none t').isSome.toNat ≤ _
      rw [Function.update_of_ne ht, addRef_apply, if_neg fun heq => ht heq.1]
      exact le_rfl

/-! ## What the table promises -/

/-- What holds of the table between the calls, and during them. -/
structure Sys.Sound (s : Sys ι τ Pc) : Prop where
  /-- What a thread has a reference to is allocated. -/
  live : ∀ t fp, 0 < s.refs t fp → fp ∈ s.mem.allocated
  /-- All references are counted. -/
  counted : ∀ fp ∈ s.mem.allocated, ((∑ t, s.refs t fp : ℕ) : ℤ) ≤ s.mem.f_count fp
  /-- When no thread is in a function, the counts are exact, objects without references have been
  freed, and a search for the id of another one finds an object with that id. -/
  quiet : (∀ t, s.pc t = none) → ∀ fp ∈ s.mem.allocated,
    s.mem.f_count fp = (∑ t, s.refs t fp : ℕ) ∧ 0 < ∑ t, s.refs t fp ∧
      ∃ fp' ∈ s.mem.allocated, s.mem.find (s.mem.f_id fp) = .ok (some fp') ∧
        s.mem.f_id fp' = s.mem.f_id fp

/-- A memory that is as the views say keeps the promises. -/
theorem Sys.Good.sound (h : s.Good view) : s.Sound := by
  obtain ⟨⟨lists, hinv⟩, -⟩ := h
  have hle : ∀ t fp, s.refs t fp ≤ share s.refs (s.views view) fp t :=
    fun _ _ => Nat.le_add_right _ _
  refine ⟨fun t fp hpos => hinv.allocated_of_share (hpos.trans_le (hle t fp)), fun fp hfp => ?_,
    fun hidle fp hfp => ?_⟩
  · rw [hinv.count fp hfp]
    exact_mod_cast Finset.sum_le_sum fun t _ => hle t fp
  · have hview : ∀ t, (s.views view).at t = {} := fun t => by
      rw [Sys.views_at, hidle t]
      rfl
    have hshare : ∀ t, share s.refs (s.views view) fp t = s.refs t fp := fun t => by
      have howes : (s.views view).owes t = none := congrArg View.owes (hview t)
      unfold share
      rw [howes]
      exact Nat.add_zero _
    have hcount : s.mem.f_count fp = (∑ t, s.refs t fp : ℕ) := by
      rw [hinv.count fp hfp]
      exact congrArg _ (Finset.sum_congr rfl fun t _ => hshare t)
    obtain ⟨k, hk⟩ := (hinv.listed fp).mpr ⟨hfp, fun t heq => by
      have hun : (s.views view).unlinked t = none := congrArg View.unlinked (hview t)
      exact Option.some_ne_none fp (heq.symm.trans hun)⟩
    have hpos := hinv.pos k fp hk
    obtain ⟨r, hfind, hsome, hnone⟩ := hinv.find_ok (s.mem.f_id fp)
    refine ⟨hcount, by omega, ?_⟩
    cases r with
    | none => exact absurd rfl (hnone rfl k fp hk)
    | some fp' =>
      obtain ⟨hmem, hid⟩ := hsome fp' rfl
      exact ⟨fp', hinv.allocated_of_mem hmem, hfind, hid⟩

/-! ## What each step has to keep -/

/-- A thread has to wait: it needs a lock that is taken, and has none that it should not have. -/
def Waits (m : Mem ι τ) (w : View ι) : Prop :=
  w.lock = none ∧ (w.hash = false ∧ m.hashlock ≠ none ∨ ∃ a ∈ m.allocated, m.f_lock a ≠ none)

/-- A thread that has a lock of an object goes on. -/
theorem not_waits_of_lock {lists : Fin NHASH → List (Link ι)}
    (hinv : Inv s.mem s.refs (s.views view) lists) {a : ι} (ha : a ∈ s.mem.allocated)
    (hlock : s.mem.f_lock a ≠ none) :
    ∃ t pc, s.pc t = some pc ∧ ¬Waits s.mem (view pc) := by
  obtain ⟨t, ht⟩ := Option.ne_none_iff_exists'.mp hlock
  have hview : (viewAt view (s.pc t)).lock = some a := (hinv.lock t a).mpr ⟨ha, ht⟩
  cases hpc : s.pc t with
  | none =>
    rw [hpc] at hview
    exact absurd hview.symm (Option.some_ne_none a)
  | some pc =>
    rw [hpc] at hview
    exact ⟨t, pc, hpc, fun hwaits => Option.some_ne_none a (hview.symm.trans hwaits.1)⟩

variable [DecidableEq τ]

/-- The invariant after a step. -/
def Lands (view : Pc → View ι) (refs : τ → ι → ℕ) (v : Views ι τ) (t : τ) (m : Mem ι τ) :
    Next ι Pc → Prop
  | .goto pc => ∃ lists, Inv m refs (v.set t (view pc)) lists
  | .ret none => ∃ lists, Inv m refs (v.set t {}) lists
  | .ret (some a) => ∃ lists, Inv m (addRef refs t a) (v.set t {}) lists

/-- What a step from a place has to keep: it waits, or it leads to a place with the right view that
is nearer to the end of the call. -/
def Steps (next : τ → Mem ι τ → Pc → Outcome (Mem ι τ × Next ι Pc)) (view : Pc → View ι)
    (rank : Pc → ℕ) (m : Mem ι τ) (refs : τ → ι → ℕ) (v : Views ι τ) (t : τ) (pc : Pc) : Prop :=
  next t m pc = .blocked ∧ Waits m (view pc) ∨
    ∃ m' n, next t m pc = .ok (m', n) ∧ Lands view refs v t m' n ∧
      ∀ pc', n = .goto pc' → rank pc' < rank pc

/-- The functions keep the invariant with the given views of their places, and each step brings a
call nearer to its end. -/
structure Keeps (P : Impl ι τ Pc) (view : Pc → View ι) (rank : Pc → ℕ) : Prop where
  foo_alloc : ∀ idx a, view (P.foo_alloc idx a) =
    { owes := some a, unlinked := some a, idx := some idx }
  foo_hold : ∀ a, view (P.foo_hold a) = { borrows := some a }
  foo_find : ∀ id, view (P.foo_find id) = {}
  foo_rele : ∀ a, view (P.foo_rele a) = { owes := some a }
  rank_pos : ∀ pc, 0 < rank pc
  next : ∀ (m : Mem ι τ) refs v lists t pc, Inv m refs v lists → Room m (view pc) →
    v.at t = view pc → (∀ t', ∃ o, v.at t' = viewAt view o) →
      Steps P.next view rank m refs v t pc

variable {P : Impl ι τ Pc} {rank : Pc → ℕ}

section Steps

variable {next : τ → Mem ι τ → Pc → Outcome (Mem ι τ × Next ι Pc)} {m m' : Mem ι τ}
  {refs : τ → ι → ℕ} {v : Views ι τ} {lists : Fin NHASH → List (Link ι)} {pc : Pc} {fp : ι}

/-- A step that leads on. -/
theorem Steps.goto (pc' : Pc) (hrun : next t m pc = .ok (m', .goto pc'))
    (hinv : Inv m' refs (v.set t (view pc')) lists) (hrank : rank pc' < rank pc) :
    Steps next view rank m refs v t pc :=
  Or.inr ⟨m', .goto pc', hrun, ⟨lists, hinv⟩, fun _ h => by cases h; exact hrank⟩

/-- A step that leads out of a function without a reference. -/
theorem Steps.ret_none (hrun : next t m pc = .ok (m', .ret none))
    (hinv : Inv m' refs (v.set t {}) lists) : Steps next view rank m refs v t pc :=
  Or.inr ⟨m', .ret none, hrun, ⟨lists, hinv⟩, fun _ h => by cases h⟩

/-- A step that leads out of a function with the reference in the thread's hands. -/
theorem Steps.ret_some (hrun : next t m pc = .ok (m', .ret (some fp)))
    (hinv : Inv m' refs (v.set t { owes := some fp }) lists) :
    Steps next view rank m refs v t pc := by
  have hret := hinv.ret_ok (Views.at_set v t _) (a := fp) rfl rfl
  rw [Views.set_set] at hret
  exact Or.inr ⟨m', .ret (some fp), hrun, ⟨lists, hret⟩, fun _ h => by cases h⟩

/-- A new object is put into the table, under `hashlock`. -/
theorem Steps.allocHash (pc' : Pc) (h : Inv m refs v lists) {idx : Fin NHASH}
    (hat : v.at t = view pc)
    (hview : view pc = { owes := some fp, unlinked := some fp, idx := some idx })
    (hview' : view pc' = { hash := true, owes := some fp })
    (hnext : next t m pc = (m.lockHash t >>= fun m => m.push idx fp >>= fun m =>
      .ok (m, .goto pc')))
    (hrank : rank pc' < rank pc) : Steps next view rank m refs v t pc := by
  rw [hview] at hat
  rcases h.lockHash_cases hat with ⟨hblocked, hne⟩ | ⟨m₁, hrun₁, -, hinv₁⟩
  · refine Or.inl ⟨by rw [hnext, hblocked, Outcome.blocked_bind], ?_⟩
    rw [hview]
    exact ⟨rfl, Or.inl ⟨rfl, hne⟩⟩
  · obtain ⟨m₂, hrun₂, hinv₂⟩ := hinv₁.push_ok (Views.at_set v t _) (a := fp) (k := idx) rfl rfl rfl
    rw [Views.set_set] at hinv₂
    rw [← hview'] at hinv₂
    exact .goto pc' (by rw [hnext, hrun₁, Outcome.ok_bind, hrun₂, Outcome.ok_bind]) hinv₂ hrank

/-- A thread that has `hashlock` takes the lock of its new object. -/
theorem Steps.allocLock (pc' : Pc) (h : Inv m refs v lists) (hat : v.at t = view pc)
    (hview : view pc = { hash := true, owes := some fp })
    (hview' : view pc' = { hash := true, lock := some fp, owes := some fp })
    (hnext : next t m pc = (m.lockFoo t fp >>= fun m => .ok (m, .goto pc')))
    (hrank : rank pc' < rank pc) : Steps next view rank m refs v t pc := by
  rw [hview] at hat
  rcases h.lockFoo_owed hat (a := fp) rfl rfl with ⟨hblocked, hne⟩ | ⟨m₁, hrun₁, -, hinv₁⟩
  · refine Or.inl ⟨by rw [hnext, hblocked, Outcome.blocked_bind], ?_⟩
    rw [hview]
    exact ⟨rfl, Or.inr hne⟩
  · rw [← hview'] at hinv₁
    exact .goto pc' (by rw [hnext, hrun₁, Outcome.ok_bind]) hinv₁ hrank

end Steps

namespace Keeps

/-- A thread that goes on keeps the invariant, or waits. -/
theorem go (h : Keeps P view rank) (hs : s.Good view) {pc : Pc} (hpc : s.pc t = some pc) :
    P.act s t .go = .blocked ∧ Waits s.mem (view pc) ∨
      ∃ m n, P.act s t .go = .ok (s.goOn t m n) ∧ (s.goOn t m n).Good view ∧
        ∀ pc', n = .goto pc' → rank pc' < rank pc := by
  obtain ⟨lists, hinv⟩ := hs.inv
  have hat : (s.views view).at t = view pc := by rw [Sys.views_at, hpc]; rfl
  have hact : P.act s t .go = Outcome.bind (P.next t s.mem pc) fun p => .ok (s.goOn t p.1 p.2) := by
    unfold Impl.act
    rw [hpc]
    rfl
  rcases h.next s.mem s.refs _ lists t pc hinv (hs.room hpc) hat
      fun t' => ⟨s.pc t', s.views_at t'⟩ with
    ⟨hblocked, hwaits⟩ | ⟨m, n, hnext, hlands, hrank⟩
  · rw [hact, hblocked]
    exact Or.inl ⟨rfl, hwaits⟩
  · rw [hact, hnext]
    have hload : ∀ fp, (s.goOn t m n).load fp ≤ intMax := fun fp => by
      have hle := load_goOn_le hpc m n fp
      have hmax := hs.load fp
      omega
    refine Or.inr ⟨m, n, rfl, ⟨?_, hload⟩, hrank⟩
    cases n with
    | goto pc' =>
      obtain ⟨lists', hinv'⟩ := hlands
      refine ⟨lists', ?_⟩
      rw [views_update (s := s) (t := t) (o := some pc') rfl]
      exact hinv'
    | ret r =>
      cases r with
      | none =>
        obtain ⟨lists', hinv'⟩ := hlands
        refine ⟨lists', ?_⟩
        rw [views_update (s := s) (t := t) (o := none) rfl]
        exact hinv'
      | some a =>
        obtain ⟨lists', hinv'⟩ := hlands
        refine ⟨lists', ?_⟩
        rw [views_update (s := s) (t := t) (o := none) rfl]
        exact hinv'

/-- A thread that calls a function, or passes a reference, keeps the invariant. -/
theorem start (h : Keeps P view rank) (hs : s.Good view) (hpc : s.pc t = none) {a : Act ι τ}
    (huses : Uses (some s) (t, a)) :
    P.start s t a = .blocked ∨ ∃ s', P.start s t a = .ok s' ∧ s'.Good view := by
  obtain ⟨lists, hinv⟩ := hs.inv
  have hat : (s.views view).at t = {} := by rw [Sys.views_at, hpc]; rfl
  have hcall : ∀ s' : Sys ι τ Pc, s'.pc = s.pc → ∀ pc,
      (s'.call t pc).views view = (s.views view).set t (view pc) := by
    intro s' hs' pc
    have hpc' : (s'.call t pc).pc = Function.update s.pc t (some pc) := by rw [← hs']; rfl
    exact views_update hpc'
  -- A call begins with room for one more thread.
  have hload : ∀ s' : Sys ι τ Pc, s.HasRoom → s'.pc = s.pc →
      (∀ t fp, s'.refs t fp ≤ s.refs t fp) → ∀ pc fp, (s'.call t pc).load fp ≤ intMax := by
    intro s' hroom hs' hrefs pc fp
    have hle := load_call_le (t := t) hs' hrefs pc fp
    have hlt := load_lt_of_hasRoom hinv hroom fp
    omega
  have howes : (s.views view).owes t = none := congrArg View.owes hat
  have hun : (s.views view).unlinked t = none := congrArg View.unlinked hat
  have hborrows : (s.views view).borrows t = none := congrArg View.borrows hat
  cases a with
  | foo_alloc id fp init =>
    have hroom : s.HasRoom := huses
    cases fp with
    | none => exact Or.inr ⟨s, rfl, hs⟩
    | some a =>
      cases init with
      | false => exact Or.inr ⟨s, rfl, hs⟩
      | true =>
        by_cases ha : a ∈ s.mem.allocated
        · exact Or.inl (if_pos ha)
        · refine Or.inr ⟨_, if_neg ha, ⟨lists, ?_⟩,
            hload { s with mem := s.mem.create id a } hroom rfl (fun _ _ => le_rfl) _⟩
          have hinv' := hinv.create (t := t) ha howes hun id
          rw [hat] at hinv'
          rw [hcall { s with mem := s.mem.create id a } rfl, h.foo_alloc]
          exact hinv'
  | foo_hold a =>
    obtain ⟨hpos, hroom⟩ : 0 < s.refs t a ∧ s.HasRoom := huses
    refine Or.inr ⟨_, rfl, ⟨lists, ?_⟩, hload s hroom rfl (fun _ _ => le_rfl) _⟩
    have hinv' := hinv.note none (some a) (t := t)
      (fun b hb => absurd hb.symm (Option.some_ne_none b)) fun b hb => Option.some.inj hb ▸ hpos
    rw [hat] at hinv'
    rw [hcall s rfl, h.foo_hold]
    exact hinv'
  | foo_find id =>
    have hroom : s.HasRoom := huses
    refine Or.inr ⟨_, rfl, ⟨lists, ?_⟩, hload s hroom rfl (fun _ _ => le_rfl) _⟩
    rw [hcall s rfl, h.foo_find, ← hat, Views.set_at]
    exact hinv
  | foo_rele a =>
    obtain ⟨hpos, hroom⟩ : 0 < s.refs t a ∧ s.HasRoom := huses
    refine Or.inr ⟨_, rfl, ⟨lists, ?_⟩,
      hload { s with refs := dropRef s.refs t a } hroom rfl (fun t' b => ?_) _⟩
    · have hinv' := hinv.giveUp hpos howes hun hborrows
      rw [hat] at hinv'
      rw [hcall { s with refs := dropRef s.refs t a } rfl, h.foo_rele]
      exact hinv'
    · -- The reference that `foo_rele` owes is no longer in the thread's hands.
      have hdrop := dropRef_add hpos t' b
      show dropRef s.refs t a t' b ≤ _
      omega
  | pass a t' =>
    have hpos : 0 < s.refs t a := huses
    refine Or.inr ⟨_, rfl, ⟨lists, hinv.pass hpos hborrows t'⟩, fun fp => ?_⟩
    -- The sum of the references is what it was, and no thread enters a function.
    have hsame : Sys.load { s with refs := addRef (dropRef s.refs t a) t' a } fp = s.load fp := by
      unfold Sys.load
      rw [Finset.sum_add_distrib, Finset.sum_add_distrib, sum_pass hpos t' fp]
    rw [hsame]
    exact hs.load fp
  | go => exact Or.inl rfl

/-- No run goes wrong. -/
theorem run (h : Keeps P view rank) {es : List (τ × Act ι τ)} {s : Option (Sys ι τ Pc)}
    (hrun : Run P.step Uses (some Sys.init) es s) : ∃ s', s = some s' ∧ s'.Good view := by
  refine hrun.invariant (I := fun s => ∃ s', s = some s' ∧ s'.Good view) ⟨_, rfl, good_init⟩ ?_
  rintro _ ⟨t, a⟩ s' ⟨s, rfl, hs⟩ huses hstep
  have hact : P.act s t a = .blocked ∨ ∃ s', P.act s t a = .ok s' ∧ s'.Good view := by
    cases hpc : s.pc t with
    | none =>
      have hstart : P.act s t a = P.start s t a := by
        unfold Impl.act
        rw [hpc]
      rw [hstart]
      exact h.start hs hpc huses
    | some pc =>
      by_cases ha : a = .go
      · subst ha
        rcases h.go hs hpc with ⟨hblocked, -⟩ | ⟨m, n, hok, hgood, -⟩
        · exact Or.inl hblocked
        · exact Or.inr ⟨_, hok, hgood⟩
      · -- A thread that is in a function does not call another one.
        refine Or.inl ?_
        unfold Impl.act
        rw [hpc]
        cases a <;> first | rfl | exact absurd rfl ha
  unfold Impl.step at hstep
  rcases hact with hblocked | ⟨s'', hok, hgood⟩
  · simp only [hblocked] at hstep
    exact absurd hstep.symm (Option.some_ne_none s')
  · simp only [hok] at hstep
    exact ⟨s'', (Option.some.inj hstep).symm, hgood⟩

end Keeps

/-! ## All calls come to an end -/

/-- The steps of threads that are in a function. -/
def Impl.goes (P : Impl ι τ Pc) : Step (Option (Sys ι τ Pc)) τ := fun s t => P.step s (t, .go)

/-- How far a thread is from the end of its call at most. -/
def toGo (rank : Pc → ℕ) (o : Option Pc) : ℕ := o.elim 0 rank

namespace Keeps

/-- When a thread is in a function, some thread can go on. -/
theorem exists_go (h : Keeps P view rank) (hs : s.Good view) {pc : Pc} (hpc : s.pc t = some pc) :
    ∃ t', P.goes (some s) t' ≠ none := by
  have hgoes : ∀ t' pc', s.pc t' = some pc' → ¬Waits s.mem (view pc') →
      ∃ t', P.goes (some s) t' ≠ none := by
    intro t' pc' hpc' hwaits
    rcases h.go hs hpc' with ⟨-, hw⟩ | ⟨m, n, hok, -⟩
    · exact absurd hw hwaits
    · refine ⟨t', ?_⟩
      unfold Impl.goes Impl.step
      simp only [hok]
      exact Option.some_ne_none _
  have hlock : ∀ a ∈ s.mem.allocated, s.mem.f_lock a ≠ none → ∃ t', P.goes (some s) t' ≠ none := by
    obtain ⟨lists, hinv⟩ := hs.inv
    intro a ha hne
    obtain ⟨t', pc', hpc', hwaits⟩ := not_waits_of_lock hinv ha hne
    exact hgoes t' pc' hpc' hwaits
  by_cases hwaits : Waits s.mem (view pc)
  · obtain ⟨-, ⟨-, hhash⟩ | ⟨a, ha, hne⟩⟩ := hwaits
    · -- The thread that has `hashlock` waits for the lock of an object at most.
      obtain ⟨t', ht'⟩ := Option.ne_none_iff_exists'.mp hhash
      obtain ⟨lists, hinv⟩ := hs.inv
      have hview : (viewAt view (s.pc t')).hash = true := (hinv.hash t').mpr ht'
      cases hpc' : s.pc t' with
      | none =>
        rw [hpc'] at hview
        exact absurd hview Bool.false_ne_true
      | some pc' =>
        rw [hpc'] at hview
        by_cases hwaits' : Waits s.mem (view pc')
        · obtain ⟨-, ⟨hno, -⟩ | ⟨a, ha, hne⟩⟩ := hwaits'
          · exact absurd (hno.symm.trans hview) Bool.false_ne_true
          · exact hlock a ha hne
        · exact hgoes t' pc' hpc' hwaits'
    · exact hlock a ha hne
  · exact hgoes t pc hpc hwaits

/-- A step brings the call of a thread nearer to its end, and leaves the other threads where they
are. -/
theorem toGo_lt (h : Keeps P view rank) {pc : Pc} (hpc : s.pc t = some pc) {m : Mem ι τ}
    {n : Next ι Pc} (hrank : ∀ pc', n = .goto pc' → rank pc' < rank pc) :
    toGo rank ((s.goOn t m n).pc t) < toGo rank (s.pc t) ∧
      ∀ t', t' ≠ t → (s.goOn t m n).pc t' = s.pc t' := by
  have hupdate : ∃ o, (s.goOn t m n).pc = Function.update s.pc t o ∧ toGo rank o < rank pc := by
    cases n with
    | goto pc' => exact ⟨some pc', rfl, hrank pc' rfl⟩
    | ret r => cases r <;> exact ⟨none, rfl, h.rank_pos pc⟩
  obtain ⟨o, ho, hlt⟩ := hupdate
  rw [ho]
  refine ⟨?_, fun t' ht => Function.update_of_ne ht _ _⟩
  rw [Function.update_self, hpc]
  exact hlt

/-- A step of a thread that is in a function keeps the invariant, brings its call nearer to its end,
and leaves the other threads where they are. -/
theorem goes_some (h : Keeps P view rank) (hs : s.Good view) {s' : Option (Sys ι τ Pc)}
    (hstep : P.goes (some s) t = some s') :
    ∃ s'', s' = some s'' ∧ s''.Good view ∧ toGo rank (s''.pc t) < toGo rank (s.pc t) ∧
      ∀ t', t' ≠ t → s''.pc t' = s.pc t' := by
  unfold Impl.goes Impl.step at hstep
  cases hpc : s.pc t with
  | none =>
    have hact : P.act s t .go = .blocked := by
      unfold Impl.act
      rw [hpc]
      rfl
    simp only [hact] at hstep
    exact absurd hstep.symm (Option.some_ne_none s')
  | some pc =>
    rcases h.go hs hpc with ⟨hblocked, -⟩ | ⟨m, n, hok, hgood, hrank⟩
    · simp only [hblocked] at hstep
      exact absurd hstep.symm (Option.some_ne_none s')
    · simp only [hok] at hstep
      obtain ⟨hlt, hother⟩ := h.toGo_lt hpc hrank
      exact ⟨_, (Option.some.inj hstep).symm, hgood, hpc ▸ hlt, hother⟩

/-- Whatever the order of their steps is, all calls come to an end, each after so many steps of its
thread at most. -/
theorem finishes (h : Keeps P view rank) (hs : s.Good view) {r : ℕ} (hr : ∀ pc, rank pc ≤ r)
    {ts : List τ} {s' : Option (Sys ι τ Pc)} (hrun : Run P.goes anyStep (some s) ts s') :
    (∀ t, ts.count t ≤ r) ∧
      ∃ s'', s' = some s'' ∧ ((∀ t, P.goes s' t = none) → ∀ t, s''.pc t = none) := by
  -- What one thread has to go falls with each of its steps, and does not grow with the others'.
  have hI : ∀ (s : Option (Sys ι τ Pc)) t s', (∃ s₁, s = some s₁ ∧ s₁.Good view) →
      P.goes s t = some s' → (∃ s₁, s' = some s₁ ∧ s₁.Good view) ∧
        s'.elim 0 (fun s => toGo rank (s.pc t)) < s.elim 0 (fun s => toGo rank (s.pc t)) ∧
        ∀ t', t' ≠ t →
          s'.elim 0 (fun s => toGo rank (s.pc t')) ≤ s.elim 0 (fun s => toGo rank (s.pc t')) := by
    rintro _ t s' ⟨s, rfl, hs⟩ hstep
    obtain ⟨s'', rfl, hgood, hlt, hother⟩ := h.goes_some hs hstep
    exact ⟨⟨s'', rfl, hgood⟩, hlt, fun t' ht => (congrArg (toGo rank) (hother t' ht)).le⟩
  obtain ⟨s'', rfl, hgood⟩ := hrun.invariant (I := fun s => ∃ s₁, s = some s₁ ∧ s₁.Good view)
    ⟨s, rfl, hs⟩ fun s t s' hs _ hstep => (hI s t s' hs hstep).1
  refine ⟨fun t => ?_, s'', rfl, fun hstuck t => ?_⟩
  · have hcount := hrun.count_add_le (I := fun s => ∃ s₁, s = some s₁ ∧ s₁.Good view)
      (μ := fun t s => s.elim 0 (fun s => toGo rank (s.pc t))) ⟨s, rfl, hs⟩ hI t
    have hbound : toGo rank (s.pc t) ≤ r := by
      cases s.pc t with
      | none => exact Nat.zero_le r
      | some pc => exact hr pc
    have hstart : (some s).elim 0 (fun s : Sys ι τ Pc => toGo rank (s.pc t)) =
      toGo rank (s.pc t) := rfl
    omega
  · -- A thread that were still in a function could go on, or another one.
    cases hpc : s''.pc t with
    | none => rfl
    | some pc =>
      obtain ⟨t', ht'⟩ := h.exists_go hgood hpc
      exact absurd (hstuck t') ht'

end Keeps

end CxxPandora.Apue.Refs
