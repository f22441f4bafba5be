import CxxPandora.Apue.Semaph.Sets
import Mathlib.Algebra.BigOperators.Ring.Finset

/-!
# Any number of processes

What is known of a process at each place in the functions depends on the set alone, and on how often
the process has it (`LocalOk`). A system call of one process leaves what is known of the others as
it is (`Frame`), since the set changes under the lock, or in ways that the process with the lock
does not depend on. So all processes that have the semaphore have the same set, whatever the others
do, and whenever one of them ends (`semaph_sound`). A process that is in `sem_create` or `sem_close`
never waits for nothing (`semaph_go`).
-/

namespace CxxPandora.Apue.Semaph

open Lib

variable {τ : Type} {P : ℤ → Prop} {set set' : Option (SemSet τ)} {S S' : SemSet τ}
  {t t' : τ} {h : ℕ → ℕ} {id : ℕ}

/-! ## What is known of a process -/

/-- What is undone of a member when a process ends. -/
def adjOf (set : Option (SemSet τ)) (t : τ) (num : SemNum) : ℤ :=
  set.elim 0 fun S => S.semadj t num

/-- A process has the lock of the set, of which something is known. -/
def Locks (set : Option (SemSet τ)) (t : τ) (id : ℕ) (Q : SemSet τ → Prop) : Prop :=
  ∃ S, set = some S ∧ S.semid = id ∧ S.semadj t .lock = -1 ∧ Q S

/-- An initial value that is possible. -/
def InitOk (P : ℤ → Prop) (initval : ℤ) : Prop := P initval ∧ 0 ≤ initval ∧ initval ≤ SEMVMX

/-- What is known of a process at each place in the functions. -/
def LocalOk (P : ℤ → Prop) (set : Option (SemSet τ)) (t : τ) (h : ℕ → ℕ) : Option Pc → Prop
  | none => adjOf set t .lock = 0
  | some (.createGet initval) => InitOk P initval ∧ adjOf set t .lock = 0
  | some (.createLock initval _ _) => InitOk P initval ∧ adjOf set t .lock = 0
  | some (.createGetval initval id) => InitOk P initval ∧ Locks set t id fun _ => True
  | some (.createSetval0 initval id) =>
    InitOk P initval ∧ Locks set t id fun S => S.semval .counter = 0
  | some (.createSetval1 id) =>
    Locks set t id fun S => S.semval .counter = 0 ∧ P (S.semval .value)
  | some (.createEnd id _) => Locks set t id fun S => S.semval .counter ≠ 0
  | some .openGet => adjOf set t .lock = 0
  | some (.openOp _ _) => adjOf set t .lock = 0
  | some (.closeOp id _) => 0 < h id ∧ adjOf set t .lock = 0
  | some (.closeGetval id) => Locks set t id fun S => S.semval .counter ≠ 0
  | some (.closeRm id) => Locks set t id fun S => S.semval .counter = BIGCOUNT
  | some (.closeUnlock id _) => Locks set t id fun _ => True
  | some (.opOp id value _) =>
    0 < h id ∧ toShort value ≠ 0 ∧ toShort value ≤ adjOf set t .value ∧ adjOf set t .lock = 0

/-- A process that has the lock depends on the set in these respects only. -/
structure Alike (S S' : SemSet τ) : Prop where
  semid : S'.semid = S.semid
  zero : S.semval .counter = 0 → S'.semval .counter = 0 ∧ S'.semval .value = S.semval .value
  ne_zero : S.semval .counter ≠ 0 → S'.semval .counter ≠ 0
  big : S.semval .counter = BIGCOUNT → S'.semval .counter = BIGCOUNT

/-- The set changes in no way that a process depends on. -/
structure Frame (set set' : Option (SemSet τ)) (t : τ) : Prop where
  adj : ∀ num, set'.isSome → adjOf set' t num = adjOf set t num
  locks : ∀ S, set = some S → S.semadj t .lock = -1 → ∃ S', set' = some S' ∧ Alike S S'

/-- Nothing changes. -/
theorem Frame.refl (set : Option (SemSet τ)) (t : τ) : Frame set set t :=
  ⟨fun _ _ => rfl, fun S hS _ => ⟨S, hS, rfl, fun hzero => ⟨hzero, rfl⟩, id, id⟩⟩

/-- A process without the lock still has none. -/
theorem Frame.lock_eq_zero (hf : Frame set set' t) (hlock : adjOf set t .lock = 0) :
    adjOf set' t .lock = 0 := by
  cases set' with
  | none => rfl
  | some S' => exact (hf.adj .lock rfl).trans hlock

/-- A process with the lock still has it. -/
theorem Frame.mono_locks (hf : Frame set set' t) {Q R : SemSet τ → Prop} (hlocks : Locks set t id Q)
    (hQR : ∀ S S', Alike S S' → Q S → R S') : Locks set' t id R := by
  obtain ⟨S, rfl, hid, hlock, hQ⟩ := hlocks
  obtain ⟨S', rfl, halike⟩ := hf.locks S rfl hlock
  exact ⟨S', rfl, halike.semid.trans hid, (hf.adj .lock rfl).trans hlock, hQR S S' halike hQ⟩

/-- What is known of a process stays known. -/
theorem LocalOk.frame {pc : Option Pc} (hok : LocalOk P set t h pc) (hf : Frame set set' t)
    (hheld : ∀ id, 0 < h id → set'.isSome) : LocalOk P set' t h pc := by
  match pc, hok with
  | none, hok => exact hf.lock_eq_zero hok
  | some (.createGet _), hok => exact ⟨hok.1, hf.lock_eq_zero hok.2⟩
  | some (.createLock _ _ _), hok => exact ⟨hok.1, hf.lock_eq_zero hok.2⟩
  | some (.createGetval _ _), hok => exact ⟨hok.1, hf.mono_locks hok.2 fun _ _ _ _ => trivial⟩
  | some (.createSetval0 _ _), hok =>
    exact ⟨hok.1, hf.mono_locks hok.2 fun _ _ halike hzero => (halike.zero hzero).1⟩
  | some (.createSetval1 _), hok =>
    refine hf.mono_locks hok fun _ _ halike hQ => ⟨(halike.zero hQ.1).1, ?_⟩
    rw [(halike.zero hQ.1).2]
    exact hQ.2
  | some (.createEnd _ _), hok => exact hf.mono_locks hok fun _ _ halike hne => halike.ne_zero hne
  | some .openGet, hok => exact hf.lock_eq_zero hok
  | some (.openOp _ _), hok => exact hf.lock_eq_zero hok
  | some (.closeOp _ _), hok => exact ⟨hok.1, hf.lock_eq_zero hok.2⟩
  | some (.closeGetval _), hok => exact hf.mono_locks hok fun _ _ halike hne => halike.ne_zero hne
  | some (.closeRm _), hok => exact hf.mono_locks hok fun _ _ halike hbig => halike.big hbig
  | some (.closeUnlock _ _), hok => exact hf.mono_locks hok fun _ _ _ _ => trivial
  | some (.opOp _ _ _), hok =>
    obtain ⟨hpos, hne, hle, hlock⟩ := hok
    exact ⟨hpos, hne, hle.trans_eq (hf.adj .value (hheld _ hpos)).symm, hf.lock_eq_zero hlock⟩

/-- Another process has changed the set, which this one has not locked. -/
theorem Frame.of_adj (hadj : S'.semadj t = S.semadj t) (hlock : S.semadj t .lock ≠ -1) :
    Frame (some S) (some S') t :=
  ⟨fun num _ => congrFun hadj num, fun _ hS₁ hlock₁ =>
    absurd hlock₁ (Option.some.inj hS₁ ▸ hlock)⟩

/-! ## The set that an id stands for -/

variable {s s' : Sys τ}

/-- The set with a given id. -/
theorem find_eq_some (hS : s.find id = some S) : s.set = some S ∧ S.semid = id := by
  obtain ⟨hset, hid⟩ := Option.filter_eq_some_iff.mp hS
  exact ⟨hset, of_decide_eq_true hid⟩

/-- The set is found by its id. -/
theorem find_semid (hS : s.set = some S) : s.find S.semid = some S :=
  Option.filter_eq_some_iff.mpr ⟨hS, decide_eq_true rfl⟩

/-- A set that one more process may have still counts one after that. -/
theorem Ready.lt_counter [Fintype τ] (hS : Ready P (fun t => s.held t id) S)
    (hroom : (s.holders id : ℤ) + 1 < BIGCOUNT) : 1 < S.semval .counter := by
  have hcounter := hS.counter
  have hcast : (s.holders id : ℤ) = ∑ t, (s.held t id : ℤ) := Nat.cast_sum ..
  omega

variable [DecidableEq τ]

/-- `semop` on a set that has been removed. -/
theorem semop_removed (hS : s.find id = none) (sops : List Sembuf) (asleep : Bool) (sleep : Pc)
    (removed : Sys τ) (death : Death) (next : Sys τ → Sys τ) :
    s.semop t id sops asleep sleep removed death next = some removed := by
  unfold Sys.semop
  rw [hS]

/-- `semop` changes the set. -/
theorem semop_ok (hS : s.set = some S) {sops : List Sembuf} (hok : S.semop t sops = .ok S')
    (asleep : Bool) (sleep : Pc) (removed : Sys τ) (death : Death) (next : Sys τ → Sys τ) :
    s.semop t S.semid sops asleep sleep removed death next =
      some (next { s with set := some S' }) := by
  simp only [Sys.semop, find_semid hS, hok]

/-- `semop` has to wait. -/
theorem semop_blocked (hS : s.set = some S) {sops : List Sembuf}
    (hblocked : S.semop t sops = .blocked) (asleep : Bool) (sleep : Pc) (removed : Sys τ)
    (death : Death) (next : Sys τ → Sys τ) :
    s.semop t S.semid sops asleep sleep removed death next =
      if asleep then none else some (s.goto t (some sleep)) := by
  simp only [Sys.semop, find_semid hS, hblocked]

/-! ## The invariant -/

/-- Another process has added to a member. -/
theorem semadj_add_of_ne (S : SemSet τ) (hne : t' ≠ t) (num : SemNum) (op : ℤ) :
    (S.add t num op true).semadj t' = S.semadj t' := by
  funext m
  rw [add_semadj, if_neg fun h => hne h.1]

/-- A process has not locked a set that nobody, or another one, has locked. -/
theorem SemSet.LockedBy.adj_ne {owner : Option τ} (hS : S.LockedBy owner) (hne : owner ≠ some t) :
    S.semadj t .lock ≠ -1 := by
  rw [hS.adj, if_neg hne]
  decide

/-- How often the processes have a set, after one of them has created, opened or closed it. -/
theorem held_hold (s : Sys τ) (t : τ) (id : ℕ) (f : ℕ → ℕ) :
    (fun t' => (s.hold t id f).held t' id) =
      Function.update (fun t' => s.held t' id) t (f (s.held t id)) := by
  funext t'
  show Function.update s.held t (Function.update (s.held t) id (f (s.held t id))) t' id = _
  by_cases ht : t' = t
  · subst ht
    rw [Function.update_self, Function.update_self, Function.update_self]
  · rw [Function.update_of_ne ht, Function.update_of_ne ht]

variable [Fintype τ]

/-- What is known of the set. -/
structure SetOk (P : ℤ → Prop) (nextId : ℕ) (h : τ → ℕ) (S : SemSet τ) : Prop where
  lt : S.semid < nextId
  locked : ∃ owner, S.LockedBy owner
  phase : Phase P h S

/-- What holds at all times. -/
structure Inv (P : ℤ → Prop) (s : Sys τ) : Prop where
  set : ∀ S, s.set = some S → SetOk P s.nextId (fun t => s.held t S.semid) S
  has : ∀ t id, 0 < s.held t id → ∃ S, s.set = some S ∧ S.semid = id
  places : ∀ t, LocalOk P s.set t (s.held t) (s.pc t)
  dead : ∀ t, s.died t ≠ none → s.pc t = none ∧ (∀ id, s.held t id = 0) ∧
    ∀ num, adjOf s.set t num = 0
  deaths : ∀ t death, s.died t = some death →
    death = .exited ∨ death = .cantLock ∨ death = .cantOpen

/-- Before any process has done anything. -/
theorem inv_init : Inv P (Sys.init : Sys τ) :=
  ⟨fun _ hS => absurd hS.symm (Option.some_ne_none _),
    fun _ _ hpos => absurd hpos (Nat.lt_irrefl 0),
    fun _ => rfl, fun _ hdied => absurd rfl hdied, fun _ _ hdied =>
      absurd hdied.symm (Option.some_ne_none _)⟩

/-- A process that is in a function has not ended. -/
theorem Inv.alive (hi : Inv P s) {pc : Pc} (hpc : s.pc t = some pc) : s.died t = none := by
  by_contra hdied
  exact Option.some_ne_none pc (hpc.symm.trans (hi.dead t hdied).1)

/-- A system call of one process. -/
theorem Inv.update (hi : Inv P s) {pc : Option Pc} (hpc : s'.pc = Function.update s.pc t pc)
    (hdied : s'.died = s.died) (halive : s.died t = none)
    (hheld : ∀ t', t' ≠ t → s'.held t' = s.held t')
    (hset : ∀ S, s'.set = some S → SetOk P s'.nextId (fun t => s'.held t S.semid) S)
    (hhas : ∀ t id, 0 < s'.held t id → ∃ S, s'.set = some S ∧ S.semid = id)
    (hok : LocalOk P s'.set t (s'.held t) pc) (hframe : ∀ t', t' ≠ t → Frame s.set s'.set t') :
    Inv P s' := by
  have hother : ∀ t', t' ≠ t → s'.pc t' = s.pc t' := fun t' ht' => by
    rw [hpc, Function.update_of_ne ht']
  refine ⟨hset, hhas, fun t' => ?_, fun t' ht' => ?_, fun t' => by rw [hdied]; exact hi.deaths t'⟩
  · by_cases ht : t' = t
    · subst ht
      rw [hpc, Function.update_self]
      exact hok
    · have hok' := hi.places t'
      rw [hother t' ht, hheld t' ht]
      refine hok'.frame (hframe t' ht) fun id hpos => ?_
      obtain ⟨S, hS, -⟩ := hhas t' id (by rwa [hheld t' ht])
      exact Option.isSome_iff_exists.mpr ⟨S, hS⟩
  · rw [hdied] at ht'
    have ht : t' ≠ t := fun heq => ht' (heq ▸ halive)
    obtain ⟨hpc', hheld', hadj⟩ := hi.dead t' ht'
    rw [hother t' ht, hheld t' ht]
    refine ⟨hpc', hheld', fun num => ?_⟩
    cases hset' : s'.set with
    | none => rfl
    | some S =>
      rw [← hset', (hframe t' ht).adj num (by rw [hset']; rfl), hadj num]

/-- A process goes on without changing the set. -/
theorem Inv.goto (hi : Inv P s) (halive : s.died t = none) {pc : Option Pc}
    (hok : LocalOk P s.set t (s.held t) pc) : Inv P (s.goto t pc) :=
  hi.update rfl rfl halive (fun _ _ => rfl) hi.set hi.has hok fun t' _ => Frame.refl s.set t'

/-- A process changes the set. -/
theorem Inv.change (hi : Inv P s) (hS : s.set = some S) (halive : s.died t = none) {pc : Option Pc}
    (hid : S'.semid = S.semid) (hlocked : ∃ owner, S'.LockedBy owner)
    (hphase : Phase P (fun t => s.held t S.semid) S')
    (hok : LocalOk P (some S') t (s.held t) pc)
    (hframe : ∀ t', t' ≠ t → Frame (some S) (some S') t') :
    Inv P ({ s with set := some S' }.goto t pc) := by
  have hsetok := hi.set S hS
  refine hi.update rfl rfl halive (fun _ _ => rfl) (fun S₁ hS₁ => ?_) (fun t' id hpos => ?_) hok
    (hS ▸ hframe)
  · obtain rfl := Option.some.inj hS₁
    exact ⟨by rw [hid]; exact hsetok.lt, hlocked, by rw [hid]; exact hphase⟩
  · obtain ⟨S₁, hS₁, hid₁⟩ := hi.has t' id hpos
    obtain rfl := Option.some.inj (hS₁.symm.trans hS)
    exact ⟨S', rfl, hid.trans hid₁⟩

/-- A process changes the set, and has it once more or less. -/
theorem Inv.change_held (hi : Inv P s) (hS : s.set = some S) (halive : s.died t = none)
    {pc : Option Pc} (hlocked : ∃ owner, S'.LockedBy owner) (hid : S'.semid = S.semid) {f : ℕ → ℕ}
    (hphase : Phase P (Function.update (fun t => s.held t S.semid) t (f (s.held t S.semid))) S')
    (hok : ∀ h, LocalOk P (some S') t h pc)
    (hframe : ∀ t', t' ≠ t → Frame (some S) (some S') t') :
    Inv P ((({ s with set := some S' } : Sys τ).hold t S.semid f).goto t pc) := by
  have hsetok := hi.set S hS
  refine hi.update rfl rfl halive (fun t' ht' => Function.update_of_ne ht' _ _)
    (fun S₁ hS₁ => ?_) (fun t' id hpos => ?_) (hok _) (hS ▸ hframe)
  · obtain rfl := Option.some.inj hS₁
    refine ⟨by rw [hid]; exact hsetok.lt, hlocked, ?_⟩
    rw [hid]
    have hheld := held_hold ({ s with set := some S' } : Sys τ) t S.semid f
    rw [← hheld] at hphase
    exact hphase
  · -- No process comes to have another set.
    by_cases hid' : id = S.semid
    · exact ⟨S', rfl, hid.trans hid'.symm⟩
    · have hsame : (((({ s with set := some S' } : Sys τ).hold t S.semid f).goto t pc).held t' id) =
          s.held t' id := by
        show Function.update s.held t (Function.update (s.held t) S.semid _) t' id = _
        by_cases ht : t' = t
        · subst ht
          rw [Function.update_self, Function.update_of_ne hid']
        · rw [Function.update_of_ne ht]
      rw [hsame] at hpos
      obtain ⟨S₁, hS₁, hid₁⟩ := hi.has t' id hpos
      obtain rfl := Option.some.inj (hS₁.symm.trans hS)
      exact absurd hid₁.symm hid'

/-! ## The end of a process -/

/-- What another process depends on does not change. -/
theorem Phase.alike_undo {h : τ → ℕ} (hS : Phase P h S) (t : τ) : Alike S (S.undo t) := by
  have hnonneg := hS.nonneg
  have hle := hS.le
  rcases hS.phase with huninit | hready
  · have hcounter := huninit.counter
    have hcadj := huninit.counter_adj t
    have hvadj := huninit.value_adj t
    have hcounter' : (S.undo t).semval .counter = 0 := by
      rw [undo_semval (by omega) (by rw [hcounter, hcadj]; decide), hcounter, hcadj]
      rfl
    refine ⟨rfl, fun _ => ⟨hcounter', ?_⟩, fun hne => absurd hcounter hne, fun hbig => ?_⟩
    · rw [undo_semval (by omega) (by omega), hvadj, Int.add_zero]
    · exact absurd (hcounter.symm.trans hbig) (by decide)
  · have hcounter := hready.counter
    have hpos := hready.pos
    have hcadj := hready.counter_adj t
    have hone : (h t : ℤ) ≤ ∑ t', (h t' : ℤ) :=
      Finset.single_le_sum (f := fun t' => (h t' : ℤ)) (fun t' _ => Int.natCast_nonneg _)
        (Finset.mem_univ t)
    have hmax : BIGCOUNT ≤ SEMVMX := by decide
    have hcounter' : (S.undo t).semval .counter = S.semval .counter + h t := by
      rw [undo_semval (by omega) (by omega), hcadj]
    exact ⟨rfl, fun hzero => absurd hzero hpos.ne', fun _ => by omega, fun hbig => by omega⟩

/-- A process ends. -/
theorem Inv.die (hi : Inv P s) {death : Death}
    (hdeath : death = .exited ∨ death = .cantLock ∨ death = .cantOpen) :
    Inv P (s.die t death) := by
  have hheld : ∀ id, (fun t' => (s.die t death).held t' id) =
      Function.update (fun t' => s.held t' id) t 0 := by
    intro id
    funext t'
    show Function.update s.held t (fun _ => 0) t' id = _
    by_cases ht : t' = t
    · rw [ht, Function.update_self, Function.update_self]
    · rw [Function.update_of_ne ht, Function.update_of_ne ht]
  have hself : (s.die t death).held t = fun _ => 0 := Function.update_self ..
  have hother : ∀ t', t' ≠ t → (s.die t death).held t' = s.held t' := fun t' ht' =>
    Function.update_of_ne ht' ..
  have hadj : ∀ t' num,
      adjOf (s.die t death).set t' num = if t' = t then 0 else adjOf s.set t' num := by
    intro t' num
    cases hS : s.set with
    | none =>
      show (s.set.map _).elim 0 _ = _
      rw [hS]
      exact (ite_self 0).symm
    | some S =>
      show (s.set.map _).elim 0 _ = _
      rw [hS]
      exact undo_semadj S t t' num
  have hframe : ∀ t', t' ≠ t → Frame s.set (s.die t death).set t' := by
    refine fun t' ht' => ⟨fun num _ => by rw [hadj, if_neg ht'], fun S hS hlock => ?_⟩
    refine ⟨S.undo t, ?_, (hi.set S hS).phase.alike_undo t⟩
    show s.set.map _ = _
    rw [hS]
    rfl
  refine ⟨fun S hS => ?_, fun t' id hpos => ?_, fun t' => ?_, fun t' ht' => ?_,
    fun t' death' ht' => ?_⟩
  · obtain ⟨S₀, hS₀, rfl⟩ := Option.map_eq_some_iff.mp hS
    obtain ⟨hlt, ⟨owner, howner⟩, hphase⟩ := hi.set S₀ hS₀
    refine ⟨hlt, ⟨_, howner.undo t⟩, ?_⟩
    rw [hheld]
    exact hphase.undo t
  · by_cases ht : t' = t
    · rw [ht, hself] at hpos
      exact absurd hpos (Nat.lt_irrefl 0)
    · rw [hother t' ht] at hpos
      obtain ⟨S, hS, hid⟩ := hi.has t' id hpos
      refine ⟨S.undo t, ?_, hid⟩
      show s.set.map _ = _
      rw [hS]
      rfl
  · by_cases ht : t' = t
    · subst ht
      have hpc : (s.die t' death).pc t' = none := Function.update_self ..
      rw [hpc]
      exact (hadj t' .lock).trans (if_pos rfl)
    · have hpc : (s.die t death).pc t' = s.pc t' := Function.update_of_ne ht ..
      rw [hpc, hother t' ht]
      refine (hi.places t').frame (hframe t' ht) fun id hpos => ?_
      obtain ⟨S, hS, -⟩ := hi.has t' id hpos
      show (s.set.map _).isSome
      rw [hS]
      rfl
  · by_cases ht : t' = t
    · subst ht
      exact ⟨Function.update_self .., fun id => congrFun hself id,
        fun num => (hadj t' num).trans (if_pos rfl)⟩
    · have hdied : (s.die t death).died t' = s.died t' := Function.update_of_ne ht ..
      have hpc : (s.die t death).pc t' = s.pc t' := Function.update_of_ne ht ..
      rw [hdied] at ht'
      obtain ⟨hpc', hheld', hadj'⟩ := hi.dead t' ht'
      exact ⟨hpc.trans hpc', fun id => by rw [hother t' ht]; exact hheld' id,
        fun num => by rw [hadj, if_neg ht]; exact hadj' num⟩
  · by_cases ht : t' = t
    · subst ht
      have hdied : (s.die t' death).died t' = some death := Function.update_self ..
      rw [hdied] at ht'
      exact Option.some.inj ht' ▸ hdeath
    · have hdied : (s.die t death).died t' = s.died t' := Function.update_of_ne ht ..
      exact hi.deaths t' death' (hdied ▸ ht')

/-! ## The system calls -/

/-- A process that has to wait goes to sleep. -/
theorem Inv.sleep (hi : Inv P s) (halive : s.died t = none) {asleep : Bool} {pc : Pc}
    (hgo : (if asleep then none else some (s.goto t (some pc))) = some s')
    (hok : LocalOk P s.set t (s.held t) (some pc)) : Inv P s' := by
  split_ifs at hgo
  obtain rfl := Option.some.inj hgo
  exact hi.goto halive hok

/-- `semget` in `sem_create`. -/
theorem Inv.go_createGet (hi : Inv P s) {initval : ℤ} (hpc : s.pc t = some (.createGet initval))
    (hgo : s.go t (.createGet initval) = some s') : Inv P s' := by
  have halive := hi.alive hpc
  have hok := hi.places t
  rw [hpc] at hok
  rw [Sys.go] at hgo
  cases hS : s.set with
  | some S =>
    simp only [hS] at hgo
    obtain rfl := Option.some.inj hgo
    exact hi.goto halive hok
  | none =>
    simp only [hS] at hgo
    obtain rfl := Option.some.inj hgo
    have hnone : ∀ t' id, ¬0 < s.held t' id := fun t' id hpos => by
      obtain ⟨S, hS', -⟩ := hi.has t' id hpos
      exact Option.some_ne_none S (hS'.symm.trans hS)
    refine hi.update rfl rfl halive (fun _ _ => rfl) (fun S' hS' => ?_)
      (fun t' id hpos => absurd hpos (hnone t' id)) ⟨hok.1, rfl⟩ fun t' _ => ?_
    · obtain rfl := Option.some.inj hS'
      refine ⟨Nat.lt_succ_self _, ⟨none, rfl, fun _ => rfl⟩, ?_⟩
      have hzero : (fun t' => s.held t' s.nextId) = fun _ => 0 :=
        funext fun t' => Nat.eq_zero_of_not_pos (hnone t' _)
      show Phase P (fun t' => s.held t' s.nextId) _
      rw [hzero]
      exact phase_create _
    · refine ⟨fun num _ => ?_, fun S' hS' => ?_⟩
      · rw [hS]
        rfl
      · exact absurd (hS.symm.trans hS').symm (Option.some_ne_none _)

/-- `sem_create` takes the lock. -/
theorem Inv.go_createLock (hi : Inv P s) {initval : ℤ} {asleep : Bool}
    (hpc : s.pc t = some (.createLock initval id asleep))
    (hgo : s.go t (.createLock initval id asleep) = some s') : Inv P s' := by
  have halive := hi.alive hpc
  have hok := hi.places t
  rw [hpc] at hok
  rw [Sys.go] at hgo
  cases hfind : s.find id with
  | none =>
    rw [semop_removed hfind] at hgo
    obtain rfl := Option.some.inj hgo
    split_ifs
    · exact hi.die (Or.inr (Or.inl rfl))
    · exact hi.goto halive hok
  | some S =>
    obtain ⟨hS, rfl⟩ := find_eq_some hfind
    obtain ⟨-, ⟨owner, howner⟩, hphase⟩ := hi.set S hS
    by_cases hzero : S.semval .lock = 0
    · rw [semop_ok hS (semop_lock hzero)] at hgo
      obtain rfl := Option.some.inj hgo
      obtain rfl := howner.eq_none hzero
      have hlocked := howner.take t
      exact hi.change hS halive rfl ⟨_, hlocked⟩ (hphase.add_lock t 1)
        ⟨hok.1, _, rfl, rfl, by rw [hlocked.adj, if_pos rfl], trivial⟩
        fun t' ht' => .of_adj (semadj_add_of_ne S ht' _ _)
          (howner.adj_ne (Option.some_ne_none t').symm)
    · rw [semop_blocked hS (semop_lock_blocked hzero)] at hgo
      exact hi.sleep halive hgo hok

/-- `sem_create` reads the counter. -/
theorem Inv.go_createGetval (hi : Inv P s) {initval : ℤ}
    (hpc : s.pc t = some (.createGetval initval id))
    (hgo : s.go t (.createGetval initval id) = some s') : Inv P s' := by
  have halive := hi.alive hpc
  have hok := hi.places t
  rw [hpc] at hok
  obtain ⟨hinit, S, hS, rfl, hadj, -⟩ := hok
  rw [Sys.go] at hgo
  simp only [find_semid hS] at hgo
  split_ifs at hgo with hzero
  · obtain rfl := Option.some.inj hgo
    exact hi.goto halive ⟨hinit, S, hS, rfl, hadj, hzero⟩
  · obtain rfl := Option.some.inj hgo
    exact hi.goto halive ⟨S, hS, rfl, hadj, hzero⟩

/-- A process that has the lock is the only one. -/
theorem Inv.lockedBy (hi : Inv P s) (hS : s.set = some S) (hadj : S.semadj t .lock = -1) :
    S.LockedBy (some t) := by
  obtain ⟨owner, howner⟩ := (hi.set S hS).locked
  exact howner.eq_some hadj ▸ howner

/-- `sem_create` sets the initial value. -/
theorem Inv.go_createSetval0 (hi : Inv P s) {initval : ℤ}
    (hpc : s.pc t = some (.createSetval0 initval id))
    (hgo : s.go t (.createSetval0 initval id) = some s') : Inv P s' := by
  have halive := hi.alive hpc
  have hok := hi.places t
  rw [hpc] at hok
  obtain ⟨⟨hP, hle, hmax⟩, S, hS, rfl, hadj, hzero⟩ := hok
  have hlocked := hi.lockedBy hS hadj
  have huninit := (hi.set S hS).phase.uninit hzero
  rw [Sys.go] at hgo
  simp only [find_semid hS, if_pos (And.intro hle hmax)] at hgo
  obtain rfl := Option.some.inj hgo
  have hsame : ∀ t', (S.setval .value initval).semadj t' = S.semadj t' := fun t' => by
    funext num
    show Function.update (S.semadj t') .value 0 num = _
    rw [← huninit.value_adj t', Function.update_eq_self]
  exact hi.change hS halive rfl ⟨_, hlocked.setval (by decide) initval⟩
    ⟨hle, hmax, Or.inl (huninit.setval_value initval)⟩
    ⟨_, rfl, rfl, by rw [hsame]; exact hadj, hzero, hP⟩
    fun t' ht' => .of_adj (hsame t') (hlocked.adj_ne fun heq => ht' (Option.some.inj heq).symm)

/-- `sem_create` sets the counter. -/
theorem Inv.go_createSetval1 (hi : Inv P s) (hpc : s.pc t = some (.createSetval1 id))
    (hgo : s.go t (.createSetval1 id) = some s') : Inv P s' := by
  have halive := hi.alive hpc
  have hok := hi.places t
  rw [hpc] at hok
  obtain ⟨S, hS, rfl, hadj, hzero, hP⟩ := hok
  have hlocked := hi.lockedBy hS hadj
  have hphase := (hi.set S hS).phase
  have huninit := hphase.uninit hzero
  rw [Sys.go] at hgo
  simp only [find_semid hS] at hgo
  obtain rfl := Option.some.inj hgo
  have hsame : ∀ t', (S.setval .counter BIGCOUNT).semadj t' = S.semadj t' := fun t' => by
    funext num
    show Function.update (S.semadj t') .counter 0 num = _
    rw [← huninit.counter_adj t', Function.update_eq_self]
  have hready := huninit.setval_counter hP hphase.le
  exact hi.change hS halive rfl ⟨_, hlocked.setval (by decide) BIGCOUNT⟩
    ⟨hphase.nonneg, hphase.le, Or.inr hready⟩
    ⟨_, rfl, rfl, by rw [hsame]; exact hadj, hready.pos.ne'⟩
    fun t' ht' => .of_adj (hsame t') (hlocked.adj_ne fun heq => ht' (Option.some.inj heq).symm)

/-- `sem_create` counts the process and gives the lock back. -/
theorem Inv.go_createEnd (hi : Inv P s) {asleep : Bool} (hpc : s.pc t = some (.createEnd id asleep))
    (hroom : (s.holders id : ℤ) + 1 < BIGCOUNT)
    (hgo : s.go t (.createEnd id asleep) = some s') : Inv P s' := by
  have halive := hi.alive hpc
  have hok := hi.places t
  rw [hpc] at hok
  obtain ⟨S, hS, rfl, hadj, hne⟩ := hok
  have hlocked := hi.lockedBy hS hadj
  have hphase := (hi.set S hS).phase
  have hready := hphase.ready hne
  have hcounter := hready.lt_counter hroom
  have hmax : S.semval .counter ≤ SEMVMX := hphase.counter_le.trans (by decide)
  rw [Sys.go, semop_ok hS (semop_endcreate hlocked.val hready.pos hmax)] at hgo
  obtain rfl := Option.some.inj hgo
  have hunlocked := (hlocked.add t (show SemNum.counter ≠ .lock by decide) (-1)).give
  have hcount : Ready P (Function.update (fun t => s.held t S.semid) t (s.held t S.semid + 1))
      (S.add t .counter (-1) true) := hready.count (by push_cast; omega) (by omega)
  have hvalue : (S.add t .counter (-1) true).semval .value = S.semval .value := by
    rw [add_semval, if_neg (by decide)]
  refine hi.change_held hS halive ⟨_, hunlocked⟩ rfl (f := fun k => k + 1) ?_ (fun _ => ?_)
    fun t' ht' => ?_
  · exact Phase.add_lock ⟨by rw [hvalue]; exact hphase.nonneg, by rw [hvalue]; exact hphase.le,
      Or.inr hcount⟩ t (-1)
  · exact (hunlocked.adj t).trans (if_neg (Option.some_ne_none t).symm)
  · refine .of_adj ?_ (hlocked.adj_ne fun heq => ht' (Option.some.inj heq).symm)
    rw [semadj_add_of_ne _ ht', semadj_add_of_ne _ ht']

/-- `semget` in `sem_open`. -/
theorem Inv.go_openGet (hi : Inv P s) (hpc : s.pc t = some .openGet)
    (hgo : s.go t .openGet = some s') : Inv P s' := by
  have halive := hi.alive hpc
  have hok := hi.places t
  rw [hpc] at hok
  rw [Sys.go] at hgo
  cases hS : s.set with
  | some S =>
    simp only [hS] at hgo
    obtain rfl := Option.some.inj hgo
    exact hi.goto halive hok
  | none =>
    simp only [hS] at hgo
    obtain rfl := Option.some.inj hgo
    exact hi.goto halive hok

/-- `sem_open` counts the process. -/
theorem Inv.go_openOp (hi : Inv P s) {asleep : Bool} (hpc : s.pc t = some (.openOp id asleep))
    (hroom : (s.holders id : ℤ) + 1 < BIGCOUNT) (hlock : ∀ S, s.set = some S → S.semval .lock = 0)
    (hgo : s.go t (.openOp id asleep) = some s') : Inv P s' := by
  have halive := hi.alive hpc
  have hok := hi.places t
  rw [hpc] at hok
  rw [Sys.go] at hgo
  cases hfind : s.find id with
  | none =>
    rw [semop_removed hfind] at hgo
    obtain rfl := Option.some.inj hgo
    exact hi.die (Or.inr (Or.inr rfl))
  | some S =>
    obtain ⟨hS, rfl⟩ := find_eq_some hfind
    obtain ⟨-, ⟨owner, howner⟩, hphase⟩ := hi.set S hS
    obtain rfl := howner.eq_none (hlock S hS)
    by_cases hzero : S.semval .counter = 0
    · rw [semop_blocked hS (semop_open_blocked hzero)] at hgo
      exact hi.sleep halive hgo hok
    · have hready := hphase.ready hzero
      have hcounter := hready.lt_counter hroom
      have hmax : S.semval .counter ≤ SEMVMX := hphase.counter_le.trans (by decide)
      rw [semop_ok hS (semop_open hready.pos hmax)] at hgo
      obtain rfl := Option.some.inj hgo
      have hunlocked := howner.add t (show SemNum.counter ≠ .lock by decide) (-1)
      have hvalue : (S.add t .counter (-1) true).semval .value = S.semval .value := by
        rw [add_semval, if_neg (by decide)]
      refine hi.change_held hS halive ⟨_, hunlocked⟩ rfl (f := fun k => k + 1) ?_ (fun _ => ?_)
        fun t' ht' => ?_
      · exact ⟨by rw [hvalue]; exact hphase.nonneg, by rw [hvalue]; exact hphase.le,
          Or.inr (hready.count (by push_cast; omega) (by omega))⟩
      · exact (hunlocked.adj t).trans (if_neg (Option.some_ne_none t).symm)
      · exact .of_adj (semadj_add_of_ne S ht' _ _) (howner.adj_ne (Option.some_ne_none t').symm)

/-- A process that has the semaphore finds it ready for use. -/
theorem Inv.exists_ready (hi : Inv P s) (hpos : 0 < s.held t id) :
    ∃ S, s.set = some S ∧ S.semid = id ∧ Ready P (fun t => s.held t S.semid) S := by
  obtain ⟨S, hS, rfl⟩ := hi.has t id hpos
  exact ⟨S, hS, rfl, (hi.set S hS).phase.ready_of_pos (t := t) hpos⟩

/-- `sem_close` takes the lock and counts one process less. -/
theorem Inv.go_closeOp (hi : Inv P s) {asleep : Bool} (hpc : s.pc t = some (.closeOp id asleep))
    (hgo : s.go t (.closeOp id asleep) = some s') : Inv P s' := by
  have halive := hi.alive hpc
  have hok := hi.places t
  rw [hpc] at hok
  obtain ⟨S, hS, rfl, hready⟩ := hi.exists_ready hok.1
  obtain ⟨-, ⟨owner, howner⟩, hphase⟩ := hi.set S hS
  rw [Sys.go] at hgo
  by_cases hzero : S.semval .lock = 0
  · have hmax : S.semval .counter < SEMVMX := hphase.counter_le.trans_lt (by decide)
    rw [semop_ok hS (semop_close hzero hready.pos.le hmax)] at hgo
    obtain rfl := Option.some.inj hgo
    obtain rfl := howner.eq_none hzero
    have hlocked := (howner.take t).add t (show SemNum.counter ≠ .lock by decide) 1
    have hcounter : (S.add t .lock 1 true).semval .counter = S.semval .counter := by
      rw [add_semval, if_neg (by decide)]
    have hvalue : ((S.add t .lock 1 true).add t .counter 1 true).semval .value =
        S.semval .value := by
      rw [add_semval, if_neg (by decide), add_semval, if_neg (by decide)]
    have hpos := hready.pos
    have hready' := (hphase.add_lock t 1).ready (by rw [hcounter]; omega)
    have hcount : Ready P (Function.update (fun t => s.held t S.semid) t (s.held t S.semid - 1))
        ((S.add t .lock 1 true).add t .counter 1 true) := by
      have hheld := hok.1
      exact hready'.count (by push_cast [hheld]; omega) (by rw [hcounter]; omega)
    refine hi.change_held hS halive ⟨_, hlocked⟩ rfl (f := fun k => k - 1) ?_ (fun _ => ?_)
      fun t' ht' => ?_
    · exact ⟨by rw [hvalue]; exact hphase.nonneg, by rw [hvalue]; exact hphase.le, Or.inr hcount⟩
    · exact ⟨_, rfl, rfl, by rw [hlocked.adj, if_pos rfl], hcount.pos.ne'⟩
    · refine .of_adj ?_ (howner.adj_ne (Option.some_ne_none t').symm)
      rw [semadj_add_of_ne _ ht', semadj_add_of_ne _ ht']
  · rw [semop_blocked hS (semop_close_blocked hzero)] at hgo
    exact hi.sleep halive hgo hok

/-- `sem_close` reads the counter, which is never more than `BIGCOUNT`. -/
theorem Inv.go_closeGetval (hi : Inv P s) (hpc : s.pc t = some (.closeGetval id))
    (hgo : s.go t (.closeGetval id) = some s') : Inv P s' := by
  have halive := hi.alive hpc
  have hok := hi.places t
  rw [hpc] at hok
  obtain ⟨S, hS, rfl, hadj, hne⟩ := hok
  have hle := (hi.set S hS).phase.counter_le
  rw [Sys.go] at hgo
  simp only [find_semid hS, if_neg (not_lt.mpr hle)] at hgo
  split_ifs at hgo with hbig
  · obtain rfl := Option.some.inj hgo
    exact hi.goto halive ⟨S, hS, rfl, hadj, hbig⟩
  · obtain rfl := Option.some.inj hgo
    exact hi.goto halive ⟨S, hS, rfl, hadj, trivial⟩

/-- `sem_close` removes the set, which nobody has. -/
theorem Inv.go_closeRm (hi : Inv P s) (hpc : s.pc t = some (.closeRm id))
    (hgo : s.go t (.closeRm id) = some s') : Inv P s' := by
  have halive := hi.alive hpc
  have hok := hi.places t
  rw [hpc] at hok
  obtain ⟨S, hS, rfl, hadj, hbig⟩ := hok
  have hlocked := hi.lockedBy hS hadj
  have hready := (hi.set S hS).phase.ready (by rw [hbig]; decide)
  rw [Sys.go] at hgo
  simp only [find_semid hS] at hgo
  obtain rfl := Option.some.inj hgo
  have hnone : ∀ t' id, ¬0 < s.held t' id := fun t' id hpos => by
    obtain ⟨S', hS', hid⟩ := hi.has t' id hpos
    obtain rfl := Option.some.inj (hS'.symm.trans hS)
    have hone : (s.held t' S'.semid : ℤ) ≤ ∑ t, (s.held t S'.semid : ℤ) :=
      Finset.single_le_sum (f := fun t => (s.held t S'.semid : ℤ))
        (fun t _ => Int.natCast_nonneg _) (Finset.mem_univ t')
    have hcounter := hready.counter
    rw [← hid] at hpos
    omega
  refine hi.update rfl rfl halive (fun _ _ => rfl)
    (fun S' hS' => absurd hS'.symm (Option.some_ne_none S'))
    (fun t' id hpos => absurd hpos (hnone t' id)) rfl fun t' ht' => ?_
  refine ⟨fun num hsome => absurd hsome Bool.false_ne_true, fun S' hS' hadj' => ?_⟩
  obtain rfl := Option.some.inj (hS'.symm.trans hS)
  exact absurd hadj' (hlocked.adj_ne fun heq => ht' (Option.some.inj heq).symm)

/-- `sem_close` gives the lock back. -/
theorem Inv.go_closeUnlock (hi : Inv P s) {asleep : Bool}
    (hpc : s.pc t = some (.closeUnlock id asleep))
    (hgo : s.go t (.closeUnlock id asleep) = some s') : Inv P s' := by
  have halive := hi.alive hpc
  have hok := hi.places t
  rw [hpc] at hok
  obtain ⟨S, hS, rfl, hadj, -⟩ := hok
  have hlocked := hi.lockedBy hS hadj
  have hunlocked := hlocked.give
  rw [Sys.go, semop_ok hS (semop_unlock hlocked.val)] at hgo
  obtain rfl := Option.some.inj hgo
  exact hi.change hS halive rfl ⟨_, hunlocked⟩ ((hi.set S hS).phase.add_lock t (-1))
    ((hunlocked.adj t).trans (if_neg (Option.some_ne_none t).symm))
    fun t' ht' => .of_adj (semadj_add_of_ne S ht' _ _)
      (hlocked.adj_ne fun heq => ht' (Option.some.inj heq).symm)

/-- `sem_op` changes the value, also while another process has the lock. -/
theorem Inv.go_opOp (hi : Inv P s) {value : ℤ} {asleep : Bool}
    (hpc : s.pc t = some (.opOp id value asleep))
    (hgo : s.go t (.opOp id value asleep) = some s') : Inv P s' := by
  have halive := hi.alive hpc
  have hok := hi.places t
  rw [hpc] at hok
  have hok' := hok
  obtain ⟨hpos, hne, hle, hlock⟩ := hok'
  obtain ⟨S, hS, rfl, hready⟩ := hi.exists_ready hpos
  obtain ⟨-, ⟨owner, howner⟩, hphase⟩ := hi.set S hS
  have hadj : ∀ num, adjOf s.set t num = S.semadj t num := fun num => by rw [hS]; rfl
  rw [hadj] at hle hlock
  obtain ⟨v, -, hv, hvalues⟩ := hready.value
  -- A process gives back what it has taken itself, so that the value does not pass its first one.
  have hone : S.semadj t .value ≤ ∑ t', S.semadj t' .value :=
    Finset.single_le_sum (f := fun t' => S.semadj t' .value) (fun t' _ => hready.value_adj t')
      (Finset.mem_univ t)
  rw [Sys.go, if_neg hne] at hgo
  by_cases hlt : S.semval .value + toShort value < 0
  · rw [semop_blocked hS (semop_op_blocked hne hlt)] at hgo
    exact hi.sleep halive hgo hok
  · rw [semop_ok hS (semop_op hne (not_lt.mp hlt) (by omega))] at hgo
    obtain rfl := Option.some.inj hgo
    have hvalue : (S.add t .value (toShort value) true).semval .value =
        S.semval .value + toShort value := by
      rw [add_semval, if_pos rfl]
    have hcounter :
        (S.add t .value (toShort value) true).semval .counter = S.semval .counter := by
      rw [add_semval, if_neg (by decide)]
    refine hi.change hS halive rfl ⟨_, howner.add t (by decide) _⟩
      ⟨by rw [hvalue]; omega, by rw [hvalue]; omega, Or.inr (hready.change hle)⟩ ?_ fun t' ht' => ?_
    · show (S.add t .value (toShort value) true).semadj t .lock = 0
      rw [add_semadj, if_neg fun h => absurd h.2 (by decide), hlock]
    · refine ⟨fun num _ => congrFun (semadj_add_of_ne S ht' _ _) num, fun S' hS' _ => ?_⟩
      obtain rfl := Option.some.inj hS'
      exact ⟨_, rfl, rfl, fun hzero => absurd hzero hready.pos.ne', fun hne' => by rwa [hcounter],
        fun hbig => by rwa [hcounter]⟩

/-! ## Runs -/

/-- The next system call of a process. -/
theorem Inv.go (hi : Inv P s) {pc : Pc} (hpc : s.pc t = some pc) (huses : Uses P s (.go t))
    (hgo : s.go t pc = some s') : Inv P s' := by
  obtain ⟨hroom, hlock⟩ := huses
  rw [hpc] at hroom hlock
  cases pc with
  | createGet initval => exact hi.go_createGet hpc hgo
  | createLock initval id asleep => exact hi.go_createLock hpc hgo
  | createGetval initval id => exact hi.go_createGetval hpc hgo
  | createSetval0 initval id => exact hi.go_createSetval0 hpc hgo
  | createSetval1 id => exact hi.go_createSetval1 hpc hgo
  | createEnd id asleep => exact hi.go_createEnd hpc (hroom id rfl) hgo
  | openGet => exact hi.go_openGet hpc hgo
  | openOp id asleep => exact hi.go_openOp hpc (hroom id rfl) (hlock rfl) hgo
  | closeOp id asleep => exact hi.go_closeOp hpc hgo
  | closeGetval id => exact hi.go_closeGetval hpc hgo
  | closeRm id => exact hi.go_closeRm hpc hgo
  | closeUnlock id asleep => exact hi.go_closeUnlock hpc hgo
  | opOp id value asleep => exact hi.go_opOp hpc hgo

/-- Each step keeps the invariant. -/
theorem Inv.step (hi : Inv P s) {a : Act τ} (huses : Uses P s a)
    (hstep : Semaph.step s a = some s') : Inv P s' := by
  match a, huses, hstep with
  | .call t c, huses, hstep =>
    rw [Semaph.step] at hstep
    split_ifs at hstep with hidle
    obtain rfl := Option.some.inj hstep
    have hok := hi.places t
    rw [Option.isNone_iff_eq_none.mp hidle.2] at hok
    cases c with
    | sem_create initval => exact hi.goto hidle.1 ⟨huses, hok⟩
    | sem_open => exact hi.goto hidle.1 hok
    | sem_close id => exact hi.goto hidle.1 ⟨huses, hok⟩
    | sem_op id value =>
      obtain ⟨hpos, hne, hle⟩ := huses
      obtain ⟨S, hS, -⟩ := hi.has t id hpos
      refine hi.goto hidle.1 ⟨hpos, hne, ?_, hok⟩
      rw [hS]
      exact hle S hS
  | .go t, huses, hstep =>
    obtain ⟨pc, hpc, hgo⟩ := Option.bind_eq_some_iff.mp hstep
    exact hi.go hpc huses hgo
  | .exit t, _, hstep =>
    rw [Semaph.step] at hstep
    split_ifs at hstep
    obtain rfl := Option.some.inj hstep
    exact hi.die (Or.inl rfl)

/-- In every run. -/
theorem Inv.of_run {es : List (Act τ)} (hrun : Run Semaph.step (Uses P) Sys.init es s) : Inv P s :=
  hrun.invariant inv_init fun _ _ _ hi huses hstep => hi.step huses hstep

/-- What the functions promise to the processes. -/
structure Sys.Sound (P : ℤ → Prop) (s : Sys τ) : Prop where
  /-- What a process has is the one set there is. -/
  one : ∀ t id, 0 < s.held t id → ∃ S, s.set = some S ∧ S.semid = id
  /-- The processes that have it are counted. -/
  counted : ∀ S t, s.set = some S → 0 < s.held t S.semid →
    S.semval .counter = BIGCOUNT - s.holders S.semid
  /-- The value, and what is undone of it when processes end, make the initial value. -/
  value : ∀ S t, s.set = some S → 0 < s.held t S.semid →
    ∃ v, P v ∧ S.semval .value + ∑ t', S.semadj t' .value = v ∧ 0 ≤ S.semval .value ∧
      ∀ t', 0 ≤ S.semadj t' .value
  /-- A process that has ended has given everything back. -/
  dead : ∀ S t, s.set = some S → s.died t ≠ none →
    s.held t S.semid = 0 ∧ S.semadj t .value = 0
  /-- No process ends with another message than these. -/
  deaths : ∀ t death, s.died t = some death →
    death = .exited ∨ death = .cantLock ∨ death = .cantOpen

/-- Whatever any number of processes do with the semaphore, in whatever order their system calls are
made, and wherever they end: all that have it have the same set, which is there and counts them; its
value and what the processes have taken of it make the initial value; what a process has taken is
given back when it ends; and `sem_close` never finds that more processes are gone than have come. -/
theorem semaph_sound {es : List (Act τ)} (hrun : Run Semaph.step (Uses P) Sys.init es s) :
    s.Sound P := by
  have hi := Inv.of_run hrun
  have hready : ∀ S t, s.set = some S → 0 < s.held t S.semid →
      Ready P (fun t => s.held t S.semid) S := fun S t hS hpos =>
    (hi.set S hS).phase.ready_of_pos (t := t) hpos
  refine ⟨hi.has, fun S t hS hpos => ?_, fun S t hS hpos => ?_, fun S t hS hdied => ?_, hi.deaths⟩
  · have hcounter := (hready S t hS hpos).counter
    have hcast : (s.holders S.semid : ℤ) = ∑ t, (s.held t S.semid : ℤ) := Nat.cast_sum ..
    omega
  · obtain ⟨v, hP, -, hvalue⟩ := (hready S t hS hpos).value
    exact ⟨v, hP, hvalue, (hi.set S hS).phase.nonneg, (hready S t hS hpos).value_adj⟩
  · obtain ⟨-, hheld, hadj⟩ := hi.dead t hdied
    refine ⟨hheld _, ?_⟩
    have hzero := hadj .value
    rwa [hS] at hzero

/-- Two processes that create a semaphore of value 1: the first ends while it has taken it, and the
second one takes it after that. -/
def takenTwice : List (Act Bool) :=
  .call false (.sem_create 1) :: List.replicate 6 (.go false) ++
    [.call true (.sem_create 1)] ++ List.replicate 4 (.go true) ++
    [.call false (.sem_op 0 (-1)), .go false, .exit false, .call true (.sem_op 0 (-1)), .go true]

/-- The second process has taken what the first one had. -/
theorem semaph_sound_takenTwice : ∃ s : Sys Bool,
    Run Semaph.step (Uses (· = 1)) Sys.init takenTwice s ∧ s.died false = some .exited ∧
    adjOf s.set true .value = 1 ∧ s.Sound (· = 1) := by
  have hexec : ((exec (restrict Semaph.step (Uses (· = 1))) (Sys.init : Sys Bool) takenTwice).any
      fun s => s.died false = some .exited ∧ adjOf s.set true .value = 1) = true := by
    decide +kernel
  obtain ⟨s, hs, hend⟩ := (Option.any_eq_true _ _).mp hexec
  obtain ⟨hdied, htaken⟩ := of_decide_eq_true hend
  have hrun := Run.of_exec_restrict hs
  exact ⟨s, hrun, hdied, htaken, semaph_sound hrun⟩

/-! ## Waiting for the lock -/

/-- Whether a process is in `sem_create` or `sem_close`. -/
def Pc.usesLock : Pc → Bool
  | .openGet => false
  | .openOp _ _ => false
  | .opOp _ _ _ => false
  | _ => true

/-- The process that has the lock can go on. -/
theorem Inv.owner_goes (hi : Inv P s) (hS : s.set = some S) (hadj : S.semadj t .lock = -1) :
    Semaph.step s (.go t) ≠ none := by
  have hlocked := hi.lockedBy hS hadj
  have hfree : adjOf s.set t .lock ≠ 0 := by
    rw [hS]
    show S.semadj t .lock ≠ 0
    rw [hadj]
    decide
  have hok := hi.places t
  rw [Semaph.step]
  cases hpc : s.pc t with
  | none =>
    rw [hpc] at hok
    exact absurd hok hfree
  | some pc =>
    rw [hpc] at hok
    show s.go t pc ≠ none
    cases pc with
    | createGet initval => exact absurd hok.2 hfree
    | createLock initval id asleep => exact absurd hok.2 hfree
    | createGetval initval id =>
      obtain ⟨-, S', hS', rfl, -⟩ := hok
      rw [Sys.go, find_semid hS']
      show (if _ then _ else _) ≠ none
      split_ifs <;> exact Option.some_ne_none _
    | createSetval0 initval id =>
      obtain ⟨-, S', hS', rfl, -⟩ := hok
      rw [Sys.go, find_semid hS']
      show (if _ then _ else _) ≠ none
      split_ifs <;> exact Option.some_ne_none _
    | createSetval1 id =>
      obtain ⟨S', hS', rfl, -⟩ := hok
      rw [Sys.go, find_semid hS']
      exact Option.some_ne_none _
    | createEnd id asleep =>
      obtain ⟨S', hS', rfl, -, hne⟩ := hok
      obtain rfl := Option.some.inj (hS'.symm.trans hS)
      have hphase := (hi.set S' hS).phase
      have hmax : S'.semval .counter ≤ SEMVMX := hphase.counter_le.trans (by decide)
      rw [Sys.go, semop_ok hS (semop_endcreate hlocked.val (hphase.ready hne).pos hmax)]
      exact Option.some_ne_none _
    | openGet => exact absurd hok hfree
    | openOp id asleep => exact absurd hok hfree
    | closeOp id asleep => exact absurd hok.2 hfree
    | closeGetval id =>
      obtain ⟨S', hS', rfl, -⟩ := hok
      rw [Sys.go, find_semid hS']
      show (if _ then _ else if _ then _ else _) ≠ none
      split_ifs <;> exact Option.some_ne_none _
    | closeRm id =>
      obtain ⟨S', hS', rfl, -⟩ := hok
      rw [Sys.go, find_semid hS']
      exact Option.some_ne_none _
    | closeUnlock id asleep =>
      obtain ⟨S', hS', rfl, -⟩ := hok
      obtain rfl := Option.some.inj (hS'.symm.trans hS)
      rw [Sys.go, semop_ok hS (semop_unlock hlocked.val)]
      exact Option.some_ne_none _
    | opOp id value asleep => exact absurd hok.2.2.2 hfree

/-- The lock is free, or some process has it. -/
theorem Inv.lock_cases (hi : Inv P s) (hS : s.set = some S) :
    S.semval .lock = 0 ∨ ∃ t, S.semadj t .lock = -1 := by
  obtain ⟨owner, howner⟩ := (hi.set S hS).locked
  cases owner with
  | none => exact Or.inl howner.val
  | some t => exact Or.inr ⟨t, by rw [howner.adj, if_pos rfl]⟩

/-- While a process is in `sem_create` or `sem_close`, some process can make its next system call:
the lock is never left behind, and nobody waits for it for ever because of those that have ended. -/
theorem semaph_go {es : List (Act τ)} (hrun : Run Semaph.step (Uses P) Sys.init es s) {pc : Pc}
    (hpc : s.pc t = some pc) (huses : pc.usesLock = true) :
    ∃ t', Semaph.step s (.go t') ≠ none := by
  have hi := Inv.of_run hrun
  have hok := hi.places t
  rw [hpc] at hok
  have hself : s.go t pc ≠ none → ∃ t', Semaph.step s (.go t') ≠ none := fun hgo =>
    ⟨t, by rw [Semaph.step, hpc]; exact hgo⟩
  have howner : ∀ S, s.set = some S → ∀ t', S.semadj t' .lock = -1 →
      ∃ t', Semaph.step s (.go t') ≠ none := fun S hS t' hadj => ⟨t', hi.owner_goes hS hadj⟩
  cases pc with
  | createGet initval =>
    refine hself ?_
    rw [Sys.go]
    cases s.set <;> exact Option.some_ne_none _
  | createLock initval id asleep =>
    cases hfind : s.find id with
    | none =>
      refine hself ?_
      rw [Sys.go, semop_removed hfind]
      exact Option.some_ne_none _
    | some S =>
      obtain ⟨hS, rfl⟩ := find_eq_some hfind
      rcases hi.lock_cases hS with hzero | ⟨t', hadj⟩
      · refine hself ?_
        rw [Sys.go, semop_ok hS (semop_lock hzero)]
        exact Option.some_ne_none _
      · exact howner S hS t' hadj
  | createGetval initval id =>
    obtain ⟨-, S, hS, -, hadj, -⟩ := hok
    exact howner S hS t hadj
  | createSetval0 initval id =>
    obtain ⟨-, S, hS, -, hadj, -⟩ := hok
    exact howner S hS t hadj
  | createSetval1 id =>
    obtain ⟨S, hS, -, hadj, -⟩ := hok
    exact howner S hS t hadj
  | createEnd id asleep =>
    obtain ⟨S, hS, -, hadj, -⟩ := hok
    exact howner S hS t hadj
  | openGet => exact absurd huses Bool.false_ne_true
  | openOp id asleep => exact absurd huses Bool.false_ne_true
  | closeOp id asleep =>
    obtain ⟨S, hS, rfl, hready⟩ := hi.exists_ready hok.1
    rcases hi.lock_cases hS with hzero | ⟨t', hadj⟩
    · have hmax : S.semval .counter < SEMVMX := (hi.set S hS).phase.counter_le.trans_lt (by decide)
      refine hself ?_
      rw [Sys.go, semop_ok hS (semop_close hzero hready.pos.le hmax)]
      exact Option.some_ne_none _
    · exact howner S hS t' hadj
  | closeGetval id =>
    obtain ⟨S, hS, -, hadj, -⟩ := hok
    exact howner S hS t hadj
  | closeRm id =>
    obtain ⟨S, hS, -, hadj, -⟩ := hok
    exact howner S hS t hadj
  | closeUnlock id asleep =>
    obtain ⟨S, hS, -, hadj, -⟩ := hok
    exact howner S hS t hadj
  | opOp id value asleep => exact absurd huses Bool.false_ne_true

/-- The first process ends in the middle of `sem_create`, for which the second one waits. -/
theorem semaph_go_exit : ∃ s : Sys Bool, Run Semaph.step (Uses (· = 1)) Sys.init
    [.call false (.sem_create 1), .go false, .go false, .call true (.sem_create 1), .go true,
      .go true, .exit false] s ∧
    s.pc true = some (.createLock 1 0 true) ∧ ∃ t, Semaph.step s (.go t) ≠ none := by
  have hexec : ((exec (restrict Semaph.step (Uses (· = 1))) (Sys.init : Sys Bool)
      [.call false (.sem_create 1), .go false, .go false, .call true (.sem_create 1), .go true,
        .go true, .exit false]).any
      fun s => s.pc true = some (.createLock 1 0 true)) = true := by
    decide +kernel
  obtain ⟨s, hs, hpc⟩ := (Option.any_eq_true _ _).mp hexec
  have hpc' := of_decide_eq_true hpc
  have hrun := Run.of_exec_restrict hs
  exact ⟨s, hrun, hpc', semaph_go hrun hpc' rfl⟩

end CxxPandora.Apue.Semaph
