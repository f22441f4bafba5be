import CxxPandora.Lib.Machine
import Mathlib.Data.Fintype.Card

/-!
# The barrier

`my_barrier_wait` of `linux/apue.3e.exs/apue3/Chapter11/exercise_5.c`, called once by each of `n`
threads. The wait for the condition is an `if` and not a loop, so a thread that wakes up for no
reason leaves the barrier, and its broadcast lets the others leave as well: `exec_early` is such a
run. `barrier_of_quiet` says that this is the only thing that goes wrong.
-/

namespace CxxPandora.Apue.Barrier

open Lib

/-! ## The model -/

/-- `PTHREAD_BARRIER_SERIAL_THREAD`. -/
def serialThread : ℤ := -1

/-- Where a thread is. -/
inductive Pc
  /-- It has not called `my_barrier_wait`. -/
  | idle
  /-- About to lock the mutex. -/
  | lock
  /-- About to decrement and test the count. -/
  | test
  /-- Blocked in `pthread_cond_wait`. -/
  | wait
  /-- Woken up in `pthread_cond_wait`, about to lock the mutex again. -/
  | relock
  /-- About to unlock the mutex. -/
  | unlock (rc : ℤ)
  /-- About to broadcast. -/
  | broadcast (rc : ℤ)
  /-- `my_barrier_wait` has returned. -/
  | returned (rc : ℤ)
  deriving DecidableEq, Repr

/-- The barrier, the holder of its mutex, and the threads. -/
structure State (n : ℕ) where
  count : ℤ
  mutex : Option (Fin n)
  pc : Fin n → Pc

/-- After `my_barrier_init`. -/
def State.init (n : ℕ) : State n := ⟨n, none, fun _ => .idle⟩

/-- What happens next. -/
inductive Event (n : ℕ)
  /-- A thread calls `my_barrier_wait`. -/
  | call (t : Fin n)
  /-- A thread goes on in it. -/
  | next (t : Fin n)
  /-- A thread wakes up from `pthread_cond_wait` for no reason. -/
  | spurious (t : Fin n)
  deriving DecidableEq, Repr

section Machine

variable {n : ℕ}

/-- The thread goes on at another place. -/
def State.goto (s : State n) (t : Fin n) (pc : Pc) : State n :=
  { s with pc := Function.update s.pc t pc }

/-- A thread after a broadcast. -/
def Pc.wake : Pc → Pc
  | .wait => .relock
  | pc => pc

/-- The next step of a thread. -/
def State.next (s : State n) (t : Fin n) : Option (State n) :=
  match s.pc t with
  | .idle => none
  | .lock => if s.mutex = none then some { s.goto t .test with mutex := some t } else none
  | .test =>
    let count := s.count - 1
    -- The wait releases the mutex.
    if 0 < count then some { s.goto t .wait with count := count, mutex := none }
    else some { s.goto t (.unlock serialThread) with count := count }
  | .wait => none
  | .relock =>
    if s.mutex = none then some { s.goto t (.unlock 0) with mutex := some t } else none
  | .unlock rc => some { s.goto t (.broadcast rc) with mutex := none }
  | .broadcast rc => some (State.goto ⟨s.count, s.mutex, fun u => (s.pc u).wake⟩ t (.returned rc))
  | .returned _ => none

/-- One step. -/
def step (s : State n) : Event n → Option (State n)
  | .call t => if s.pc t = .idle then some (s.goto t .lock) else none
  | .next t => s.next t
  | .spurious t => if s.pc t = .wait then some (s.goto t .relock) else none

/-! ## What the barrier is for -/

/-- No call returns before all threads have entered, one call returns the serial thread, and no
thread that has entered stays blocked: when all threads have entered and one is blocked, a thread
that has not yet counted itself, or the serial thread, is about to broadcast, and when no thread can
go on, all have returned. -/
structure State.Correct (s : State n) : Prop where
  entered : ∀ t rc, s.pc t = .returned rc → ∀ u, s.pc u ≠ .idle
  serial_unique : ∀ t u, s.pc t = .returned serialThread → s.pc u = .returned serialThread → t = u
  serial_exists : (∀ t, ∃ rc, s.pc t = .returned rc) → ∃ t, s.pc t = .returned serialThread
  woken : ∀ t, s.pc t = .wait → (∀ u, s.pc u ≠ .idle) →
    ∃ u, s.pc u = .lock ∨ s.pc u = .test ∨ s.pc u = .unlock serialThread ∨
      s.pc u = .broadcast serialThread
  finished : (∀ u, s.pc u ≠ .idle) → (∀ u, s.next u = none) → ∀ t, ∃ rc, s.pc t = .returned rc

/-- No thread wakes up for no reason before all threads have entered. -/
def Quiet (s : State n) : Event n → Prop
  | .spurious _ => ∀ u, s.pc u ≠ .idle
  | _ => True

/-! ## What holds in every run -/

/-- The thread has not yet decremented the count. -/
def Pc.Uncounted (pc : Pc) : Prop := pc = .idle ∨ pc = .lock ∨ pc = .test

/-- This can be decided. -/
instance : DecidablePred Pc.Uncounted := fun pc =>
  inferInstanceAs (Decidable (pc = .idle ∨ pc = .lock ∨ pc = .test))

/-- The thread is to return the serial thread. -/
def Pc.Serial (pc : Pc) : Prop :=
  pc = .unlock serialThread ∨ pc = .broadcast serialThread ∨ pc = .returned serialThread

/-- The thread leaves the barrier, or has left it. -/
def Pc.Leaves (pc : Pc) : Prop :=
  pc = .relock ∨ ∃ rc, pc = .unlock rc ∨ pc = .broadcast rc ∨ pc = .returned rc

/-- The threads that have not yet decremented the count. -/
def State.uncounted (s : State n) : Finset (Fin n) :=
  Finset.univ.filter fun t => (s.pc t).Uncounted

/-- The invariant. -/
structure Inv (s : State n) : Prop where
  /-- The count is the number of threads that have not yet decremented it. -/
  count_eq : s.count = s.uncounted.card
  /-- The serial thread is the one that has found zero. -/
  serial_iff : (∃ t, (s.pc t).Serial) ↔ s.count = 0
  serial_unique : ∀ t u, (s.pc t).Serial → (s.pc u).Serial → t = u
  /-- While a thread waits, the serial thread has not broadcast. -/
  not_returned : ∀ t, s.pc t = .wait → ∀ u, s.pc u ≠ .returned serialThread
  /-- Nobody leaves before all threads have entered. -/
  entered : ∀ t, (s.pc t).Leaves → ∀ u, s.pc u ≠ .idle
  /-- The holder of the mutex is about to release it. -/
  holder : ∀ t, s.mutex = some t → s.pc t = .test ∨ ∃ rc, s.pc t = .unlock rc

variable {s s' : State n} {t u : Fin n} {pc : Pc} {rc : ℤ} {count : ℤ} {mutex : Option (Fin n)}

/-- The thread that has gone on. -/
theorem goto_pc (s : State n) (t : Fin n) (pc : Pc) : (s.goto t pc).pc t = pc :=
  Function.update_self ..

/-- The other threads stay where they are. -/
theorem goto_pc_of_ne (s : State n) (pc : Pc) (h : u ≠ t) : (s.goto t pc).pc u = s.pc u :=
  Function.update_of_ne h ..

/-- Who has not decremented the count. -/
theorem mem_uncounted : t ∈ s.uncounted ↔ (s.pc t).Uncounted := by
  rw [State.uncounted, Finset.mem_filter, and_iff_right (Finset.mem_univ t)]

/-- Nobody else decrements the count when a thread goes on elsewhere. -/
theorem uncounted_goto (h : pc.Uncounted ↔ (s.pc t).Uncounted) :
    (s.goto t pc).uncounted = s.uncounted := by
  ext u
  rw [mem_uncounted, mem_uncounted]
  by_cases hut : u = t
  · rw [hut, goto_pc, h]
  · rw [goto_pc_of_ne s pc hut]

/-- A thread decrements the count. -/
theorem card_uncounted_goto (h : (s.pc t).Uncounted) (h' : ¬pc.Uncounted) :
    (s.goto t pc).uncounted.card + 1 = s.uncounted.card := by
  have herase : (s.goto t pc).uncounted = s.uncounted.erase t := by
    ext u
    rw [Finset.mem_erase, mem_uncounted, mem_uncounted]
    by_cases hut : u = t
    · rw [hut, goto_pc]
      exact iff_of_false h' fun hu => hu.1 rfl
    · rw [goto_pc_of_ne s pc hut, and_iff_right hut]
  rw [herase]
  exact Finset.card_erase_add_one (mem_uncounted.mpr h)

/-- What holds of a thread and its place, and of all other threads, holds of all. -/
theorem forall_goto {P : Fin n → Pc → Prop} (ht : P t pc) (hne : ∀ u, u ≠ t → P u (s.pc u))
    (u : Fin n) : P u ((s.goto t pc).pc u) := by
  by_cases hut : u = t
  · rw [hut, goto_pc]
    exact ht
  · rw [goto_pc_of_ne s pc hut]
    exact hne u hut

/-- When nobody has found zero, nobody returns the serial thread. -/
theorem Inv.not_serial (h : Inv s) (hcount : 0 < s.count) (t : Fin n) : ¬(s.pc t).Serial := by
  intro ht
  have hzero := h.serial_iff.mp ⟨t, ht⟩
  omega

/-- A thread goes on without a decrement. -/
theorem Inv.goto (h : Inv s) (huncounted : pc.Uncounted ↔ (s.pc t).Uncounted)
    (hserial : pc.Serial ↔ (s.pc t).Serial) (hwait : pc ≠ .wait) (hidle : pc ≠ .idle)
    (hreturned : pc = .returned serialThread → ∀ u, s.pc u ≠ .wait)
    (hleaves : pc.Leaves → ∀ u, s.pc u ≠ .idle)
    (hholder : ∀ u, mutex = some u →
      (u = t ∧ (pc = .test ∨ ∃ rc, pc = .unlock rc)) ∨ (u ≠ t ∧ s.mutex = some u)) :
    Inv { s.goto t pc with mutex := mutex } := by
  have hsame : ∀ u, ((s.goto t pc).pc u).Serial ↔ (s.pc u).Serial :=
    forall_goto (P := fun u pc => pc.Serial ↔ (s.pc u).Serial) hserial fun _ _ => Iff.rfl
  have hwaits : ∀ u, (s.goto t pc).pc u = .wait → s.pc u = .wait :=
    forall_goto (P := fun u pc => pc = .wait → s.pc u = .wait) (fun heq => absurd heq hwait)
      fun _ _ heq => heq
  refine ⟨?_, (exists_congr hsame).trans h.serial_iff, fun u v hu hv => ?_, fun u hu => ?_,
    fun u hu => ?_, fun u hu => ?_⟩
  · show s.count = (s.goto t pc).uncounted.card
    rw [uncounted_goto huncounted]
    exact h.count_eq
  · exact h.serial_unique u v ((hsame u).mp hu) ((hsame v).mp hv)
  · refine forall_goto (P := fun _ pc => pc ≠ .returned serialThread) (fun heq => ?_) fun v _ =>
      h.not_returned u (hwaits u hu) v
    exact hreturned heq u (hwaits u hu)
  · have hall : ∀ v, s.pc v ≠ .idle :=
      forall_goto (P := fun _ pc => pc.Leaves → ∀ v, s.pc v ≠ .idle) hleaves
        (fun u _ => h.entered u) u hu
    exact forall_goto (P := fun _ pc => pc ≠ .idle) hidle fun v _ => hall v
  · show (s.goto t pc).pc u = .test ∨ ∃ rc, (s.goto t pc).pc u = .unlock rc
    rcases hholder u hu with ⟨rfl, hpc⟩ | ⟨hne, hmutex⟩
    · rw [goto_pc]
      exact hpc
    · rw [goto_pc_of_ne s pc hne]
      exact h.holder u hmutex

/-- A thread that is about to test the count is one of those that it counts. -/
theorem Inv.count_pos (h : Inv s) (htest : s.pc t = .test) : 0 < s.count := by
  have hmem : t ∈ s.uncounted := mem_uncounted.mpr (Or.inr (Or.inr htest))
  have hpos := Finset.card_pos.mpr ⟨t, hmem⟩
  rw [h.count_eq]
  omega

/-- The count after the decrement. -/
theorem Inv.count_sub (h : Inv s) (htest : s.pc t = .test) (pc : Pc) (hpc : ¬pc.Uncounted) :
    s.count - 1 = (s.goto t pc).uncounted.card := by
  have hcard := card_uncounted_goto (s := s) (t := t) (Or.inr (Or.inr htest)) hpc
  rw [h.count_eq, ← hcard]
  push_cast
  omega

/-- A thread that is not the last one waits. -/
theorem Inv.wait (h : Inv s) (htest : s.pc t = .test) (hcount : 0 < s.count - 1) :
    Inv { s.goto t .wait with count := s.count - 1, mutex := none } := by
  have hserial : ∀ u, ¬((s.goto t .wait).pc u).Serial :=
    forall_goto (P := fun _ pc => ¬pc.Serial) (by simp [Pc.Serial]) fun u _ =>
      h.not_serial (h.count_pos htest) u
  refine ⟨h.count_sub htest .wait (by simp [Pc.Uncounted]), ?_, fun u v hu => absurd hu (hserial u),
    fun _ _ v hv => hserial v (Or.inr (Or.inr hv)), fun u hu => ?_, fun u hu => by cases hu⟩
  · refine iff_of_false (fun ⟨u, hu⟩ => hserial u hu) ?_
    show s.count - 1 ≠ 0
    omega
  · have hall : ∀ v, s.pc v ≠ .idle :=
      forall_goto (P := fun _ pc => pc.Leaves → ∀ v, s.pc v ≠ .idle) (by simp [Pc.Leaves])
        (fun u _ => h.entered u) u hu
    exact forall_goto (P := fun _ pc => pc ≠ .idle) (by simp) fun v _ => hall v

/-- The last thread goes on. -/
theorem Inv.serial (h : Inv s) (htest : s.pc t = .test) (hcount : ¬0 < s.count - 1) :
    Inv { s.goto t (.unlock serialThread) with count := s.count - 1 } := by
  have hpos := h.count_pos htest
  have hsub := h.count_sub htest (.unlock serialThread) (by simp [Pc.Uncounted])
  have hother : ∀ u, ((s.goto t (.unlock serialThread)).pc u).Serial → u = t :=
    forall_goto (P := fun u pc => pc.Serial → u = t) (fun _ => rfl) fun u _ hu =>
      absurd hu (h.not_serial hpos u)
  refine ⟨hsub, iff_of_true ⟨t, Or.inl (goto_pc ..)⟩ ?_, fun u v hu hv => ?_, fun u _ v hv => ?_,
    fun u _ v hv => ?_, fun u hu => ?_⟩
  · show s.count - 1 = 0
    omega
  · rw [hother u hu, hother v hv]
  · obtain rfl := hother v (Or.inr (Or.inr hv))
    exact absurd ((goto_pc ..).symm.trans hv) (by simp)
  · -- No thread is left to decrement the count.
    have hmem : v ∈ (s.goto t (.unlock serialThread)).uncounted := mem_uncounted.mpr (Or.inl hv)
    have hcard := Finset.card_pos.mpr ⟨v, hmem⟩
    omega
  · show (s.goto t (.unlock serialThread)).pc u = .test ∨
      ∃ rc, (s.goto t (.unlock serialThread)).pc u = .unlock rc
    by_cases hut : u = t
    · rw [hut, goto_pc]
      exact Or.inr ⟨_, rfl⟩
    · rw [goto_pc_of_ne s _ hut]
      exact h.holder u hu

/-- All waiting threads are woken. -/
theorem Inv.wake (h : Inv s) (hall : ∀ u, s.pc u ≠ .idle) :
    Inv ⟨s.count, s.mutex, fun u => (s.pc u).wake⟩ := by
  have huncounted : ∀ pc : Pc, pc.wake.Uncounted ↔ pc.Uncounted := fun pc => by
    cases pc <;> simp [Pc.wake, Pc.Uncounted]
  have hserial : ∀ pc : Pc, pc.wake.Serial ↔ pc.Serial := fun pc => by
    cases pc <;> simp [Pc.wake, Pc.Serial]
  have hidle : ∀ pc : Pc, pc.wake = .idle → pc = .idle := fun pc => by cases pc <;> simp [Pc.wake]
  have hwait : ∀ pc : Pc, pc.wake ≠ .wait := fun pc => by cases pc <;> simp [Pc.wake]
  refine ⟨?_, (exists_congr fun u => hserial (s.pc u)).trans h.serial_iff, fun u v hu hv => ?_,
    fun u hu => absurd hu (hwait _), fun u _ v hv => hall v (hidle _ hv), fun u hu => ?_⟩
  · rw [h.count_eq]
    refine congrArg (fun U => ((Finset.card U : ℕ) : ℤ)) (Finset.filter_congr fun u _ => ?_)
    exact (huncounted (s.pc u)).symm
  · exact h.serial_unique u v ((hserial _).mp hu) ((hserial _).mp hv)
  · show (s.pc u).wake = .test ∨ ∃ rc, (s.pc u).wake = .unlock rc
    rcases h.holder u hu with hpc | ⟨rc, hpc⟩ <;> rw [hpc]
    · exact Or.inl rfl
    · exact Or.inr ⟨rc, rfl⟩

/-- The holder of the mutex is not a thread that is elsewhere. -/
theorem Inv.ne_of_holder (h : Inv s) (hu : s.mutex = some u) (htest : s.pc t ≠ .test)
    (hunlock : ∀ rc, s.pc t ≠ .unlock rc) : u ≠ t := by
  rintro rfl
  rcases h.holder u hu with hpc | ⟨rc, hpc⟩
  · exact htest hpc
  · exact hunlock rc hpc

/-- A quiet step keeps the invariant. -/
theorem inv_step {e : Event n} (h : Inv s) (hquiet : Quiet s e) (hstep : step s e = some s') :
    Inv s' := by
  cases e with
  | call t =>
    simp only [step, Option.ite_none_right_eq_some] at hstep
    obtain ⟨hpc, hstep⟩ := hstep
    obtain rfl := Option.some.inj hstep
    refine h.goto (by simp [hpc, Pc.Uncounted]) (by simp [hpc, Pc.Serial]) (by simp) (by simp)
      (by simp) (by simp [Pc.Leaves]) fun u hu => Or.inr ⟨?_, hu⟩
    exact h.ne_of_holder hu (by simp [hpc]) (by simp [hpc])
  | spurious t =>
    simp only [step, Option.ite_none_right_eq_some] at hstep
    obtain ⟨hpc, hstep⟩ := hstep
    obtain rfl := Option.some.inj hstep
    refine h.goto (by simp [hpc, Pc.Uncounted]) (by simp [hpc, Pc.Serial]) (by simp) (by simp)
      (by simp) (fun _ => hquiet) fun u hu => Or.inr ⟨?_, hu⟩
    exact h.ne_of_holder hu (by simp [hpc]) (by simp [hpc])
  | next t =>
    simp only [step, State.next] at hstep
    split at hstep <;> rename_i hpc
    · cases hstep
    · -- The thread locks the mutex.
      rw [Option.ite_none_right_eq_some] at hstep
      obtain rfl := Option.some.inj hstep.2
      refine h.goto (by simp [hpc, Pc.Uncounted]) (by simp [hpc, Pc.Serial]) (by simp) (by simp)
        (by simp) (by simp [Pc.Leaves]) fun u hu => Or.inl ⟨(Option.some.inj hu).symm, Or.inl rfl⟩
    · -- It decrements the count, and waits unless it is the last one.
      split_ifs at hstep with hcount
      · obtain rfl := Option.some.inj hstep
        exact h.wait hpc hcount
      · obtain rfl := Option.some.inj hstep
        exact h.serial hpc hcount
    · cases hstep
    · -- It has been woken up, and locks the mutex again.
      rw [Option.ite_none_right_eq_some] at hstep
      obtain rfl := Option.some.inj hstep.2
      refine h.goto (by simp [hpc, Pc.Uncounted]) (by simp [hpc, Pc.Serial, serialThread]) (by simp)
        (by simp) (by simp) (fun _ => h.entered t (Or.inl hpc)) fun u hu =>
          Or.inl ⟨(Option.some.inj hu).symm, Or.inr ⟨0, rfl⟩⟩
    · -- It unlocks the mutex.
      obtain rfl := Option.some.inj hstep
      exact h.goto (by simp [hpc, Pc.Uncounted]) (by simp [hpc, Pc.Serial]) (by simp) (by simp)
        (by simp) (fun _ => h.entered t (Or.inr ⟨_, Or.inl hpc⟩)) fun u hu => by cases hu
    · -- It wakes up the others and returns.
      obtain rfl := Option.some.inj hstep
      have hall := h.entered t (Or.inr ⟨_, Or.inr (Or.inl hpc)⟩)
      have hwake := h.wake hall
      have hwoken : ∀ u, (s.pc u).wake ≠ .wait := fun u => by
        cases s.pc u <;> simp [Pc.wake]
      refine hwake.goto (by simp [hpc, Pc.Uncounted, Pc.wake]) (by simp [hpc, Pc.Serial, Pc.wake])
        (by simp) (by simp) (fun _ => hwoken) (fun _ => hwake.entered t ?_)
        fun u hu => Or.inr ⟨?_, hu⟩
      · simp [hpc, Pc.wake, Pc.Leaves]
      · exact h.ne_of_holder hu (by simp [hpc]) (by simp [hpc])
    · cases hstep

/-- At the start nobody has entered. -/
theorem inv_init (hn : 1 ≤ n) : Inv (.init n) := by
  refine ⟨?_, iff_of_false ?_ ?_, fun t u ht => ?_, fun t ht => ?_, fun t ht => ?_,
    fun t ht => by cases ht⟩
  · have hall : (State.init n).uncounted = Finset.univ :=
      Finset.filter_true_of_mem fun _ _ => Or.inl rfl
    rw [hall, Finset.card_univ, Fintype.card_fin]
    rfl
  · rintro ⟨t, ht⟩
    simp [State.init, Pc.Serial] at ht
  · show (n : ℤ) ≠ 0
    omega
  · simp [State.init, Pc.Serial] at ht
  · simp [State.init] at ht
  · simp [State.init, Pc.Leaves] at ht

/-- A thread goes on unless it has not entered, waits, or has returned; it may have to wait for the
mutex. -/
theorem next_ne_none (hmutex : s.mutex = none ∨ s.pc t = .test ∨ ∃ rc, s.pc t = .unlock rc)
    (hidle : s.pc t ≠ .idle) (hwait : s.pc t ≠ .wait) (hreturned : ∀ rc, s.pc t ≠ .returned rc) :
    s.next t ≠ none := by
  unfold State.next
  split <;> rename_i hpc
  · exact absurd hpc hidle
  · rw [if_pos (by simpa [hpc] using hmutex)]
    exact Option.some_ne_none _
  · dsimp only
    split_ifs <;> exact Option.some_ne_none _
  · exact absurd hpc hwait
  · rw [if_pos (by simpa [hpc] using hmutex)]
    exact Option.some_ne_none _
  · exact Option.some_ne_none _
  · exact Option.some_ne_none _
  · exact absurd hpc (hreturned _)

/-- When a thread waits and all have entered, the serial thread is still to broadcast. -/
theorem Inv.woken (h : Inv s) (ht : s.pc t = .wait) (hall : ∀ u, s.pc u ≠ .idle) :
    ∃ u, s.pc u = .lock ∨ s.pc u = .test ∨ s.pc u = .unlock serialThread ∨
      s.pc u = .broadcast serialThread := by
  by_cases hzero : s.count = 0
  · obtain ⟨u, hu | hu | hu⟩ := h.serial_iff.mpr hzero
    · exact ⟨u, Or.inr (Or.inr (Or.inl hu))⟩
    · exact ⟨u, Or.inr (Or.inr (Or.inr hu))⟩
    · exact absurd hu (h.not_returned t ht u)
  · -- Some thread has not yet decremented the count.
    have hcard : s.uncounted.card ≠ 0 := fun hcard => hzero (by rw [h.count_eq, hcard]; rfl)
    obtain ⟨u, hu⟩ := Finset.card_pos.mp (Nat.pos_of_ne_zero hcard)
    rcases mem_uncounted.mp hu with hu | hu | hu
    · exact absurd hu (hall u)
    · exact ⟨u, Or.inl hu⟩
    · exact ⟨u, Or.inr (Or.inl hu)⟩

/-- When all threads have entered and none can go on, all have returned. -/
theorem Inv.finished (h : Inv s) (hall : ∀ u, s.pc u ≠ .idle) (hnext : ∀ u, s.next u = none)
    (t : Fin n) : ∃ rc, s.pc t = .returned rc := by
  -- A holder of the mutex could go on.
  have hmutex : s.mutex = none := by
    by_contra hsome
    obtain ⟨u, hu⟩ := Option.ne_none_iff_exists'.mp hsome
    refine next_ne_none (Or.inr (h.holder u hu)) (hall u) ?_ ?_ (hnext u)
    · rcases h.holder u hu with hpc | ⟨rc, hpc⟩ <;> simp [hpc]
    · rcases h.holder u hu with hpc | ⟨rc, hpc⟩ <;> simp [hpc]
  by_contra hreturned
  have hreturned' : ∀ rc, s.pc t ≠ .returned rc := fun rc hpc => hreturned ⟨rc, hpc⟩
  by_cases hwait : s.pc t = .wait
  · -- Whoever is to wake it up could go on.
    obtain ⟨u, hu⟩ := h.woken hwait hall
    refine next_ne_none (Or.inl hmutex) (hall u) ?_ ?_ (hnext u)
    · rcases hu with hu | hu | hu | hu <;> simp [hu]
    · rcases hu with hu | hu | hu | hu <;> simp [hu]
  · exact next_ne_none (Or.inl hmutex) (hall t) hwait hreturned' (hnext t)

/-- With the invariant, the barrier is correct. -/
theorem Inv.correct (h : Inv s) : s.Correct where
  entered t rc ht := h.entered t (Or.inr ⟨rc, Or.inr (Or.inr ht)⟩)
  serial_unique t u ht hu := h.serial_unique t u (Or.inr (Or.inr ht)) (Or.inr (Or.inr hu))
  serial_exists hall := by
    -- All have decremented the count, so one of them has found zero.
    have hempty : s.uncounted = ∅ := by
      refine Finset.eq_empty_of_forall_notMem fun t ht => ?_
      obtain ⟨rc, hrc⟩ := hall t
      simpa [hrc, Pc.Uncounted] using mem_uncounted.mp ht
    obtain ⟨t, ht⟩ := h.serial_iff.mpr (by rw [h.count_eq, hempty]; rfl)
    obtain ⟨rc, hrc⟩ := hall t
    refine ⟨t, ?_⟩
    simpa [hrc, Pc.Serial] using ht
  woken _ ht hall := h.woken ht hall
  finished := h.finished

/-- In every run in which no thread wakes up for no reason before all threads have entered, the
barrier is correct. -/
theorem barrier_of_quiet {es : List (Event n)} (hn : 1 ≤ n) (h : Run step Quiet (.init n) es s) :
    s.Correct :=
  (h.invariant (inv_init hn) fun _ _ _ => inv_step).correct

end Machine

/-- The guard can be evaluated. -/
instance {n : ℕ} (s : State n) (e : Event n) : Decidable (Quiet s e) :=
  match e with
  | .spurious _ => inferInstanceAs (Decidable (∀ u, s.pc u ≠ .idle))
  | .call _ | .next _ => isTrue trivial

/-- Two threads, of which the second one is woken up for no reason after the first one has entered
too. -/
theorem barrier_of_quiet_two : ∃ s : State 2, Run step Quiet (.init 2)
      [.call 0, .next 0, .next 0, .call 1, .spurious 0, .next 0, .next 0, .next 0] s ∧
    s.pc 0 = .returned 0 ∧ s.Correct := by
  have hexec : ∃ s : State 2, exec (restrict step Quiet) (.init 2)
      [.call 0, .next 0, .next 0, .call 1, .spurious 0, .next 0, .next 0, .next 0] = some s ∧
      s.pc 0 = .returned 0 := ⟨_, rfl, rfl⟩
  obtain ⟨s, hs, hpc⟩ := hexec
  exact ⟨s, Run.of_exec_restrict hs, hpc, barrier_of_quiet (by decide) (Run.of_exec_restrict hs)⟩

/-! ## The early return -/

/-- One of two threads wakes up for no reason and returns, and the other one has not entered. -/
theorem exec_early : ∃ s : State 2, exec step (.init 2)
      [.call 0, .next 0, .next 0, .spurious 0, .next 0, .next 0, .next 0] = some s ∧
    s.pc 0 = .returned 0 ∧ s.pc 1 = .idle := ⟨_, rfl, rfl, rfl⟩

/-- That is not a barrier. -/
theorem not_correct_early : ¬∀ (n : ℕ) (es : List (Event n)) (s : State n), 1 ≤ n →
    Run step anyStep (.init n) es s → s.Correct := by
  intro h
  obtain ⟨s, hs, hreturned, hidle⟩ := exec_early
  exact (h 2 _ s (by decide) (Run.of_exec hs)).entered 0 0 hreturned 1 hidle

end CxxPandora.Apue.Barrier
