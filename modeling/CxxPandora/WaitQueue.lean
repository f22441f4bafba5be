import CxxPandora.Lib.Machine
import CxxPandora.Lib.Words

/-!
# A kernel thread on a wait queue

The module of `linux/wait_queue/exp1`: a thread that waits for `wait_queue_flag`, the reads of its
proc entry that set the flag to 1, and its exit function, which sets it to 2. A step is one read or
write of the flag, or a wake-up. The thread reads the flag twice before it stores 0, and nothing
orders the stores of the others with that: a stop request that is stored between the second read and
the store of 0 is lost, and so is one that a later read of the proc entry overwrites.
`stop_kept` says that these two are all there is.
-/

namespace CxxPandora.WaitQueue

open Lib

/-! ## The model -/

/-- Where `wait_function` is. -/
inductive WaiterPc
  /-- About to test the condition of `wait_event_interruptible`. -/
  | test
  /-- About to enter the wait queue. -/
  | prepare
  /-- In the queue, about to test the condition again. -/
  | retest
  /-- In the queue, asleep until it is woken. -/
  | sleep
  /-- Out of `wait_event_interruptible`, about to compare the flag with 2. -/
  | check
  /-- About to count the event and print it. -/
  | count
  /-- About to store 0. -/
  | clear
  /-- `wait_function` has returned. -/
  | returned
  deriving DecidableEq, Repr

/-- Where `mywaitqueue_exit` is. -/
inductive ExitPc
  /-- It has not been called. -/
  | idle
  /-- It has stored 2, and is about to wake the queue. -/
  | stored
  /-- It has woken the queue, and is about to remove the proc entry. -/
  | woken
  /-- It has removed the proc entry. -/
  | removed
  deriving DecidableEq, Repr

/-- The module: its variables, the thread and whether it has been woken since it entered the queue,
how many calls of `my_waitqueue_show` have stored 1 and not yet woken the queue, and the exit
function. -/
structure State where
  flag : ℤ
  readCount : ℤ
  waiter : WaiterPc
  awake : Bool
  shows : ℕ
  exit : ExitPc
  deriving DecidableEq, Repr

/-- The module has been loaded, and the thread is about to run. -/
def State.start : State where
  flag := 0
  readCount := 0
  waiter := .test
  awake := false
  shows := 0
  exit := .idle

/-- What happens next. -/
inductive Event
  /-- The thread goes on. -/
  | wait
  /-- A call of `my_waitqueue_show` stores 1. -/
  | showStore
  /-- A call of `my_waitqueue_show` wakes the queue. -/
  | showWake
  /-- `mywaitqueue_exit` stores 2. -/
  | exitStore
  /-- `mywaitqueue_exit` wakes the queue. -/
  | exitWake
  /-- `mywaitqueue_exit` removes the proc entry, once no call of `my_waitqueue_show` is running. -/
  | exitRemove
  deriving DecidableEq, Repr

/-- `wake_up_interruptible(&test_waitqueue)`: the thread is woken if it is in the queue. -/
def State.wakeUp (s : State) : State :=
  if s.waiter = .retest ∨ s.waiter = .sleep then { s with awake := true } else s

/-- The next step of `wait_function`. A thread that is asleep goes on when it has been woken. -/
def State.wait (s : State) : Option State :=
  match s.waiter with
  | .test => some { s with waiter := if s.flag ≠ 0 then .check else .prepare }
  | .prepare => some { s with waiter := .retest, awake := false }
  | .retest => some { s with waiter := if s.flag ≠ 0 then .check else .sleep }
  | .sleep => if s.awake then some { s with waiter := .prepare } else none
  | .check => some { s with waiter := if s.flag = 2 then .returned else .count }
  -- The kernel is compiled so that `int` arithmetic wraps.
  | .count => some { s with readCount := toInt (s.readCount + 1), waiter := .clear }
  | .clear => some { s with flag := 0, waiter := .test }
  | .returned => none

/-- One step. -/
def step (s : State) : Event → Option State
  | .wait => s.wait
  | .showStore =>
    if s.exit ≠ .removed then some { s with flag := 1, shows := s.shows + 1 } else none
  | .showWake => if 0 < s.shows then some { s.wakeUp with shows := s.shows - 1 } else none
  | .exitStore => if s.exit = .idle then some { s with flag := 2, exit := .stored } else none
  | .exitWake => if s.exit = .stored then some { s.wakeUp with exit := .woken } else none
  | .exitRemove =>
    if s.exit = .woken ∧ s.shows = 0 then some { s with exit := .removed } else none

/-! ## The stop request -/

/-- The exit function has stored 2 and woken the queue. -/
def State.Stopping (s : State) : Prop := s.exit = .woken ∨ s.exit = .removed

/-- The stop request is not lost: until the thread has returned, the flag is 2 and the thread does
not sleep without having been woken. -/
def State.Kept (s : State) : Prop :=
  s.waiter ≠ .returned → s.flag = 2 ∧ (s.waiter = .sleep → s.awake = true)

/-- No store of another follows the stop request before it is read: the exit function does not store
2 between the thread's comparison and its store of 0, and from then on no call of
`my_waitqueue_show` stores 1 until the thread has returned. -/
def Orderly (s : State) : Event → Prop
  | .showStore => s.exit = .idle ∨ s.waiter = .returned
  | .exitStore => s.waiter ≠ .count ∧ s.waiter ≠ .clear
  | _ => True

/-- From the stop request on, until it has returned, the thread is not about to store 0 and the flag
is 2; and once the queue has been woken, the thread is awake. -/
structure Inv (s : State) : Prop where
  flag_eq : s.exit ≠ .idle → s.waiter ≠ .returned →
    s.flag = 2 ∧ s.waiter ≠ .count ∧ s.waiter ≠ .clear
  awake : s.Stopping → s.waiter = .sleep → s.awake = true

/-- Waking the queue changes nothing but whether the thread is awake: a sleeping one is then. -/
theorem State.wakeUp_eq (s : State) :
    ∃ awake, s.wakeUp = { s with awake := awake } ∧ (s.waiter = .sleep → awake = true) := by
  unfold wakeUp
  split_ifs with hqueued
  · exact ⟨true, rfl, fun _ => rfl⟩
  · exact ⟨s.awake, rfl, fun hsleep => absurd (Or.inr hsleep) hqueued⟩

/-- Before the exit function is called there is nothing to keep. -/
theorem Inv.of_idle {s : State} (h : s.exit = .idle) : Inv s := by
  refine ⟨fun hexit => absurd h hexit, ?_⟩
  rintro (hwoken | hremoved)
  · exact absurd (h.symm.trans hwoken) (by decide)
  · exact absurd (h.symm.trans hremoved) (by decide)

/-- The thread has moved to a place from which it reads the flag before it stores or sleeps. -/
theorem Inv.moved {s : State} (h : s.flag = 2)
    (hpc : s.waiter = .prepare ∨ s.waiter = .retest ∨ s.waiter = .check) : Inv s := by
  refine ⟨fun _ _ => ⟨h, ?_, ?_⟩, fun _ hsleep => ?_⟩
  · rcases hpc with hpc | hpc | hpc <;> rw [hpc] <;> decide
  · rcases hpc with hpc | hpc | hpc <;> rw [hpc] <;> decide
  · rcases hpc with hpc | hpc | hpc <;> exact absurd (hpc.symm.trans hsleep) (by decide)

/-- The thread's steps do not touch the exit function. -/
theorem State.exit_of_wait {s s' : State} (h : s.wait = some s') : s'.exit = s.exit := by
  unfold wait at h
  cases hpc : s.waiter with
  | sleep =>
    rw [hpc] at h
    dsimp only at h
    split_ifs at h
    rw [← Option.some.inj h]
  | returned =>
    rw [hpc] at h
    exact absurd h (Option.some_ne_none s').symm
  | _ =>
    rw [hpc] at h
    rw [← Option.some.inj h]

/-- The thread's steps keep the invariant: while the flag is 2, it goes on to return. -/
theorem Inv.wait {s s' : State} (h : Inv s) (hstep : s.wait = some s') : Inv s' := by
  by_cases hidle : s.exit = .idle
  · exact .of_idle ((State.exit_of_wait hstep).trans hidle)
  have hkeep := h.flag_eq hidle
  unfold State.wait at hstep
  cases hpc : s.waiter with
  | returned =>
    rw [hpc] at hstep
    exact absurd hstep (Option.some_ne_none s').symm
  | count =>
    rw [hpc] at hkeep
    exact absurd rfl (hkeep WaiterPc.noConfusion).2.1
  | clear =>
    rw [hpc] at hkeep
    exact absurd rfl (hkeep WaiterPc.noConfusion).2.2
  | test =>
    rw [hpc] at hstep hkeep
    obtain ⟨hflag, -, -⟩ := hkeep WaiterPc.noConfusion
    rw [← Option.some.inj hstep]
    exact .moved hflag (Or.inr (Or.inr (if_pos (by rw [hflag]; decide))))
  | prepare =>
    rw [hpc] at hstep hkeep
    obtain ⟨hflag, -, -⟩ := hkeep WaiterPc.noConfusion
    rw [← Option.some.inj hstep]
    exact .moved hflag (Or.inr (Or.inl rfl))
  | retest =>
    rw [hpc] at hstep hkeep
    obtain ⟨hflag, -, -⟩ := hkeep WaiterPc.noConfusion
    rw [← Option.some.inj hstep]
    exact .moved hflag (Or.inr (Or.inr (if_pos (by rw [hflag]; decide))))
  | sleep =>
    rw [hpc] at hstep hkeep
    obtain ⟨hflag, -, -⟩ := hkeep WaiterPc.noConfusion
    dsimp only at hstep
    split_ifs at hstep
    rw [← Option.some.inj hstep]
    exact .moved hflag (Or.inl rfl)
  | check =>
    rw [hpc] at hstep hkeep
    obtain ⟨hflag, -, -⟩ := hkeep WaiterPc.noConfusion
    dsimp only at hstep
    rw [if_pos hflag] at hstep
    rw [← Option.some.inj hstep]
    exact ⟨fun _ hreturned => absurd rfl hreturned,
      fun _ hsleep => absurd hsleep WaiterPc.noConfusion⟩

/-- Every orderly step keeps the invariant. -/
theorem Inv.step {s s' : State} {e : Event} (h : Inv s) (hG : Orderly s e)
    (hstep : step s e = some s') : Inv s' := by
  cases e with
  | wait => exact h.wait hstep
  | showStore =>
    unfold WaitQueue.step at hstep
    dsimp only at hstep
    split_ifs at hstep
    rw [← Option.some.inj hstep]
    rcases hG with hidle | hreturned
    · exact .of_idle hidle
    · exact ⟨fun _ hne => absurd hreturned hne,
        fun _ hsleep => absurd (hreturned.symm.trans hsleep) (by decide)⟩
  | showWake =>
    unfold WaitQueue.step at hstep
    dsimp only at hstep
    split_ifs at hstep
    obtain ⟨awake, hwake, hsleep⟩ := s.wakeUp_eq
    rw [← Option.some.inj hstep, hwake]
    exact ⟨h.flag_eq, fun _ => hsleep⟩
  | exitStore =>
    unfold WaitQueue.step at hstep
    dsimp only at hstep
    split_ifs at hstep
    rw [← Option.some.inj hstep]
    refine ⟨fun _ _ => ⟨rfl, hG⟩, ?_⟩
    rintro (hwoken | hremoved)
    · exact absurd hwoken ExitPc.noConfusion
    · exact absurd hremoved ExitPc.noConfusion
  | exitWake =>
    unfold WaitQueue.step at hstep
    dsimp only at hstep
    split_ifs at hstep with hstored
    obtain ⟨awake, hwake, hsleep⟩ := s.wakeUp_eq
    rw [← Option.some.inj hstep, hwake]
    exact ⟨fun _ => h.flag_eq (by rw [hstored]; decide), fun _ => hsleep⟩
  | exitRemove =>
    unfold WaitQueue.step at hstep
    dsimp only at hstep
    split_ifs at hstep with hwoken
    rw [← Option.some.inj hstep]
    exact ⟨fun _ => h.flag_eq (by rw [hwoken.1]; decide), fun _ => h.awake (Or.inl hwoken.1)⟩

/-- In every run whose steps are all orderly, the stop request is kept once it has been made. -/
theorem stop_kept {es : List Event} {s : State} (h : Run step Orderly State.start es s)
    (hstop : s.Stopping) : s.Kept := by
  have hinv : Inv s := h.invariant (.of_idle rfl) fun _ _ _ hs hG hstep => hs.step hG hstep
  have hidle : s.exit ≠ .idle := by
    rcases hstop with hwoken | hremoved
    · rw [hwoken]
      decide
    · rw [hremoved]
      decide
  exact fun hreturned => ⟨(hinv.flag_eq hidle hreturned).1, hinv.awake hstop⟩

/-- Whether a step is orderly can be computed. -/
instance (s : State) (e : Event) : Decidable (Orderly s e) :=
  match e with
  | .showStore => inferInstanceAs (Decidable (_ ∨ _))
  | .exitStore => inferInstanceAs (Decidable (_ ∧ _))
  | .wait | .showWake | .exitWake | .exitRemove => inferInstanceAs (Decidable True)

/-- The thread sleeps, and is stopped. -/
theorem stop_kept_sleeping :
    State.Kept { State.start with flag := 2, waiter := .sleep, awake := true, exit := .woken } := by
  have hexec : exec (restrict step Orderly) State.start
      [.wait, .wait, .wait, .exitStore, .exitWake] =
        some { State.start with flag := 2, waiter := .sleep, awake := true, exit := .woken } := rfl
  exact stop_kept (Run.of_exec_restrict hexec) (Or.inl rfl)

/-- In some run the exit function has stored 2 and woken the queue, and the thread sleeps with the
flag at 0: it stored 0 after it had compared the flag with 2. -/
theorem stop_lost : ∃ es s, Run step anyStep State.start es s ∧ s.Stopping ∧ ¬s.Kept := by
  refine ⟨[.showStore, .showWake, .wait, .wait, .exitStore, .exitWake, .wait, .wait, .wait, .wait,
    .wait], _, Run.of_exec rfl, Or.inl rfl, fun hkept => ?_⟩
  exact absurd (hkept (by decide)).1 (by decide)

end CxxPandora.WaitQueue
