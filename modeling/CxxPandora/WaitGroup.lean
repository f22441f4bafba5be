import CxxPandora.Lib.Machine
import CxxPandora.Lib.Words
import Mathlib.Logic.Function.Basic

/-!
# The wait group

`WaitGroup` of `utils/waitgroup/wait_group.cpp`, shared by any number of threads that take their
atomic steps in any order. `wait_returns` says that `Wait` does not return early, and
`no_lost_wakeup` that no thread stays blocked once the counter is zero or less. `wait_group_spec`
combines the two.
-/

namespace CxxPandora.WaitGroup

open Lib

/-! ## The model -/

/-- Where a thread is. Its next atomic step is the one that the constructor names. -/
inductive Pc
  /-- In no call. -/
  | idle
  /-- `if (data_->count_ <= 0)` of `Done`. -/
  | doneTest
  /-- The construction of `lck` in `Done`. -/
  | doneLock
  /-- `notify_all`. -/
  | doneNotify
  /-- The destruction of `lck` in `Done`. -/
  | doneUnlock
  /-- The construction of `lck` in `Wait`. -/
  | waitLock
  /-- The predicate of `cv_.wait`. -/
  | waitTest
  /-- `cv_.wait` releases the mutex and blocks, in one step. -/
  | waitBlock
  /-- Blocked, and not notified since. -/
  | waitBlocked
  /-- Woken: the next step acquires the mutex. -/
  | waitRelock
  /-- The destruction of `lck` in `Wait`, which returns. -/
  | waitReturn
  deriving DecidableEq, Repr

/-- The calls. `Add` and the decrement of `Done` are one atomic step each. -/
inductive Call
  | Add (count : ℤ)
  | Done (count : ℤ)
  | Wait
  deriving DecidableEq, Repr

/-- A step of thread `t`: the start of a call, the next atomic step of the call that it is in, or a
spurious wake-up. -/
inductive Event
  | call (t : ℕ) (c : Call)
  | next (t : ℕ)
  | wake (t : ℕ)
  deriving DecidableEq, Repr

/-- The counter, the holder of `mux_`, and the threads. -/
structure State where
  count_ : ℤ
  mux_ : Option ℕ
  pc : ℕ → Pc

/-- The constructor. -/
def State.new (initialCount : ℤ) : State := ⟨initialCount, none, fun _ => .idle⟩

/-- Thread `t` goes on at `p`. -/
def State.goto (s : State) (t : ℕ) (p : Pc) : State := { s with pc := Function.update s.pc t p }

/-- Thread `t` acquires the mutex, if it is free, and goes on at `p`. -/
def State.lock (s : State) (t : ℕ) (p : Pc) : Option State :=
  if s.mux_ = none then some { s.goto t p with mux_ := some t } else none

/-- Thread `t` releases the mutex and goes on at `p`. -/
def State.unlock (s : State) (t : ℕ) (p : Pc) : State := { s.goto t p with mux_ := none }

/-- `notify_all` wakes every blocked thread. -/
def State.notifyAll (s : State) : State :=
  { s with pc := fun u => if s.pc u = .waitBlocked then .waitRelock else s.pc u }

/-- The first atomic step of a call. The arithmetic of an atomic `int` wraps. -/
def State.call (s : State) (t : ℕ) : Call → State
  | .Add count => { s with count_ := toInt (s.count_ + count) }
  | .Done count => { s.goto t .doneTest with count_ := toInt (s.count_ - count) }
  | .Wait => s.goto t .waitLock

/-- The next atomic step of the call that thread `t` is in, if it has one that is possible. -/
def State.next (s : State) (t : ℕ) : Option State :=
  match s.pc t with
  | .idle => none
  -- `Done` reads the counter again, which other threads may have changed since its decrement.
  | .doneTest => some (s.goto t (if s.count_ ≤ 0 then .doneLock else .idle))
  | .doneLock => s.lock t .doneNotify
  | .doneNotify => some (s.notifyAll.goto t .doneUnlock)
  | .doneUnlock => some (s.unlock t .idle)
  | .waitLock => s.lock t .waitTest
  -- The mutex is held from the test of the predicate to the block.
  | .waitTest => some (s.goto t (if s.count_ ≤ 0 then .waitReturn else .waitBlock))
  | .waitBlock => some (s.unlock t .waitBlocked)
  -- A blocked thread is moved by a notification or by a spurious wake-up.
  | .waitBlocked => none
  | .waitRelock => s.lock t .waitTest
  | .waitReturn => some (s.unlock t .idle)

/-- One atomic step of one thread. -/
def step : Step State Event
  | s, .call t c => if s.pc t = .idle then some (s.call t c) else none
  | s, .next t => s.next t
  | s, .wake t => if s.pc t = .waitBlocked then some (s.goto t .waitRelock) else none

/-! ## What a step does -/

/-- The steps that move thread `t` and leave the counter alone: from where to where, and from which
holder of the mutex to which. -/
inductive Move (count_ : ℤ) (t : ℕ) : Pc → Option ℕ → Pc → Option ℕ → Prop
  | testDone (m : Option ℕ) : Move count_ t .doneTest m (if count_ ≤ 0 then .doneLock else .idle) m
  | lockDone : Move count_ t .doneLock none .doneNotify (some t)
  | unlockDone (m : Option ℕ) : Move count_ t .doneUnlock m .idle none
  | lockWait : Move count_ t .waitLock none .waitTest (some t)
  | testWait (m : Option ℕ) :
      Move count_ t .waitTest m (if count_ ≤ 0 then .waitReturn else .waitBlock) m
  | block (m : Option ℕ) : Move count_ t .waitBlock m .waitBlocked none
  | wake (m : Option ℕ) : Move count_ t .waitBlocked m .waitRelock m
  | relock : Move count_ t .waitRelock none .waitTest (some t)
  | unlockWait (m : Option ℕ) : Move count_ t .waitReturn m .idle none

/-- Thread `t` moves to `q`, and the holder of the mutex is `m`. -/
def State.move (s : State) (t : ℕ) (q : Pc) (m : Option ℕ) : State :=
  ⟨s.count_, m, Function.update s.pc t q⟩

/-- `lock` needs the mutex to be free. -/
theorem State.lock_eq_some {s s' : State} {t : ℕ} {p : Pc} (h : s.lock t p = some s') :
    s.mux_ = none ∧ s' = s.move t p (some t) := by
  unfold State.lock at h
  split_ifs at h with hmux
  exact ⟨hmux, (Option.some.inj h).symm⟩

/-- The next step of a thread is the notification or a move. -/
theorem State.next_cases {s s' : State} {t : ℕ} (h : s.next t = some s') :
    (s.pc t = .doneNotify ∧ s' = s.notifyAll.goto t .doneUnlock) ∨
      ∃ q m, Move s.count_ t (s.pc t) s.mux_ q m ∧ s' = s.move t q m := by
  unfold State.next at h
  split at h <;> rename_i hpc
  · exact absurd h.symm (Option.some_ne_none s')
  · exact .inr ⟨_, _, hpc ▸ .testDone _, (Option.some.inj h).symm⟩
  · obtain ⟨hmux, hs'⟩ := State.lock_eq_some h
    exact .inr ⟨_, _, hpc ▸ hmux ▸ .lockDone, hs'⟩
  · exact .inl ⟨hpc, (Option.some.inj h).symm⟩
  · exact .inr ⟨_, _, hpc ▸ .unlockDone _, (Option.some.inj h).symm⟩
  · obtain ⟨hmux, hs'⟩ := State.lock_eq_some h
    exact .inr ⟨_, _, hpc ▸ hmux ▸ .lockWait, hs'⟩
  · exact .inr ⟨_, _, hpc ▸ .testWait _, (Option.some.inj h).symm⟩
  · exact .inr ⟨_, _, hpc ▸ .block _, (Option.some.inj h).symm⟩
  · exact absurd h.symm (Option.some_ne_none s')
  · obtain ⟨hmux, hs'⟩ := State.lock_eq_some h
    exact .inr ⟨_, _, hpc ▸ hmux ▸ .relock, hs'⟩
  · exact .inr ⟨_, _, hpc ▸ .unlockWait _, (Option.some.inj h).symm⟩

/-- A step is the start of a call, the notification, or a move. -/
theorem step_cases {s s' : State} {e : Event} (h : step s e = some s') :
    (∃ t c, e = .call t c ∧ s.pc t = .idle ∧ s' = s.call t c) ∨
    (∃ t, e = .next t ∧ s.pc t = .doneNotify ∧ s' = s.notifyAll.goto t .doneUnlock) ∨
    (∃ t q m, (e = .next t ∨ e = .wake t) ∧ Move s.count_ t (s.pc t) s.mux_ q m ∧
      s' = s.move t q m) := by
  cases e with
  | call t c =>
    simp only [step] at h
    split_ifs at h with hpc
    exact .inl ⟨t, c, rfl, hpc, (Option.some.inj h).symm⟩
  | next t =>
    obtain ⟨hpc, hs'⟩ | ⟨q, m, hmove, hs'⟩ := State.next_cases h
    · exact .inr (.inl ⟨t, rfl, hpc, hs'⟩)
    · exact .inr (.inr ⟨t, q, m, .inl rfl, hmove, hs'⟩)
  | wake t =>
    simp only [step] at h
    split_ifs at h with hpc
    exact .inr (.inr ⟨t, _, _, .inr rfl, hpc ▸ .wake _, (Option.some.inj h).symm⟩)

/-- Where the first atomic step of a call leads. -/
def Call.pc : Call → Pc
  | Add _ => .idle
  | Done _ => .doneTest
  | Wait => .waitLock

/-- A call moves its thread. -/
theorem State.pc_call {s : State} {t : ℕ} (c : Call) (h : s.pc t = .idle) :
    (s.call t c).pc = Function.update s.pc t c.pc := by
  cases c with
  | Add count =>
    rw [Call.pc, ← h, Function.update_eq_self]
    rfl
  | Done count => rfl
  | Wait => rfl

/-- What a step does to one thread: it starts a call, or stays where it is, or notifies, or moves.
The notification is a spurious wake-up for each thread that it wakes. -/
theorem step_thread {s s' : State} {e : Event} (h : step s e = some s') (t : ℕ) :
    (∃ c, e = .call t c ∧ s'.pc t = c.pc) ∨
      (∀ c, e ≠ .call t c) ∧
        (s'.pc t = s.pc t ∨ s.pc t = .doneNotify ∧ s'.pc t = .doneUnlock ∨
          Move s.count_ t (s.pc t) s.mux_ (s'.pc t) s'.mux_) := by
  obtain ⟨u, c, rfl, hpc, rfl⟩ | ⟨u, rfl, hpc, rfl⟩ | ⟨u, q, m, he, hmove, rfl⟩ := step_cases h
  · rw [State.pc_call c hpc]
    by_cases htu : t = u
    · rw [htu, Function.update_self]
      exact .inl ⟨c, rfl, rfl⟩
    · rw [Function.update_of_ne htu]
      exact .inr ⟨fun c' hc' => htu (Event.call.inj hc').1.symm, .inl rfl⟩
  · refine .inr ⟨fun c hc => Event.noConfusion hc, ?_⟩
    by_cases htu : t = u
    · rw [htu]
      exact .inr (.inl ⟨hpc, Function.update_self ..⟩)
    · have hpc' : (s.notifyAll.goto u .doneUnlock).pc t = s.notifyAll.pc t :=
        Function.update_of_ne htu _ _
      rw [hpc', State.notifyAll]
      dsimp only
      split_ifs with hblocked
      · rw [hblocked]
        exact .inr (.inr (.wake _))
      · exact .inl rfl
  · refine .inr ⟨by rintro c rfl; simp at he, ?_⟩
    by_cases htu : t = u
    · subst htu
      have hpc : (s.move t q m).pc t = q := Function.update_self ..
      rw [hpc]
      exact .inr (.inr hmove)
    · exact .inl (Function.update_of_ne htu _ _)

/-! ## `Wait` does not return early -/

/-- In a call of `Wait`. -/
def Pc.InWait : Pc → Prop
  | waitLock | waitTest | waitBlock | waitBlocked | waitRelock | waitReturn => True
  | _ => False

/-- Thread `t` started a call of `Wait` and then the steps `es₁` were taken, no other start of a
call of this thread among them. -/
def WaitSince (t : ℕ) (es es₁ : List Event) : Prop :=
  (∃ es₀, es = es₀ ++ .call t .Wait :: es₁) ∧ ∀ c, Event.call t c ∉ es₁

/-- In the run `es`, some state since the start of the call of `Wait` that thread `t` is in had a
counter of zero or less: the one between `es₁` and `es₂`. -/
def SeenDone (initialCount : ℤ) (t : ℕ) (es : List Event) : Prop :=
  ∃ es₁ es₂ s₁, es = es₁ ++ es₂ ∧ (∃ since, WaitSince t es₁ since) ∧ (∀ c, Event.call t c ∉ es₂) ∧
    Run step anyStep (.new initialCount) es₁ s₁ ∧ s₁.count_ ≤ 0

/-- A step that does not start a call of `t` is one more step since its call. -/
theorem WaitSince.snoc {t : ℕ} {es es₁ : List Event} {e : Event} (h : WaitSince t es es₁)
    (he : ∀ c, e ≠ .call t c) : WaitSince t (es ++ [e]) (es₁ ++ [e]) := by
  obtain ⟨⟨es₀, hes⟩, hno⟩ := h
  refine ⟨⟨es₀, by rw [hes, List.append_assoc, List.cons_append]⟩, fun c hc => ?_⟩
  obtain hc | hc := List.mem_append.mp hc
  · exact hno c hc
  · exact he c (List.mem_singleton.mp hc).symm

/-- A counter seen at zero or less stays seen. -/
theorem SeenDone.snoc {n : ℤ} {t : ℕ} {es : List Event} {e : Event} (h : SeenDone n t es)
    (he : ∀ c, e ≠ .call t c) : SeenDone n t (es ++ [e]) := by
  obtain ⟨es₁, es₂, s₁, hes, hsince, hno, hrun, hcount⟩ := h
  refine ⟨es₁, es₂ ++ [e], s₁, by rw [hes, List.append_assoc], hsince, fun c hc => ?_, hrun, hcount⟩
  obtain hc | hc := List.mem_append.mp hc
  · exact hno c hc
  · exact he c (List.mem_singleton.mp hc).symm

/-- A move into `Wait` is a move inside it. -/
theorem Move.inWait {n : ℤ} {t : ℕ} {p q : Pc} {m m' : Option ℕ} (h : Move n t p m q m')
    (hq : q.InWait) : p.InWait := by
  cases h with
  | testDone => split_ifs at hq <;> exact hq.elim
  | lockDone | unlockDone | unlockWait => exact hq.elim
  | lockWait | testWait | block | wake | relock => exact trivial

/-- The only move to the return is the test of the predicate, on a counter of zero or less. -/
theorem Move.waitReturn {n : ℤ} {t : ℕ} {p : Pc} {m m' : Option ℕ}
    (h : Move n t p m .waitReturn m') : p = .waitTest ∧ n ≤ 0 := by
  generalize hq : Pc.waitReturn = q at h
  cases h with
  | testDone => split_ifs at hq
  | testWait =>
    split_ifs at hq with hn
    exact ⟨rfl, hn⟩
  | lockDone | unlockDone | unlockWait | lockWait | block | wake | relock => exact Pc.noConfusion hq

/-- What holds after every run: a thread in `Wait` has called it, and one that is about to return
has seen the counter at zero or less. -/
structure History (n : ℤ) (es : List Event) (s : State) : Prop where
  run : Run step anyStep (.new n) es s
  since : ∀ t, (s.pc t).InWait → ∃ es₁, WaitSince t es es₁
  seen : ∀ t, s.pc t = .waitReturn → SeenDone n t es

/-- A step keeps it. -/
theorem History.step {n : ℤ} {es : List Event} {s s' : State} {e : Event} (h : History n es s)
    (hs : step s e = some s') : History n (es ++ [e]) s' := by
  -- By the cases of what the step does to the thread.
  refine ⟨h.run.snoc trivial hs, fun t ht => ?_, fun t ht => ?_⟩
  · obtain ⟨c, rfl, hc⟩ | ⟨hno, hstay | ⟨-, hunlock⟩ | hmove⟩ := step_thread hs t
    · -- The call that has just started is the one.
      rw [hc] at ht
      cases c with
      | Wait => exact ⟨[], ⟨es, rfl⟩, fun c hc => List.not_mem_nil hc⟩
      | Add | Done => exact ht.elim
    · obtain ⟨es₁, hes₁⟩ := h.since t (hstay ▸ ht)
      exact ⟨_, hes₁.snoc hno⟩
    · rw [hunlock] at ht
      exact ht.elim
    · obtain ⟨es₁, hes₁⟩ := h.since t (hmove.inWait ht)
      exact ⟨_, hes₁.snoc hno⟩
  · obtain ⟨c, rfl, hc⟩ | ⟨hno, hstay | ⟨-, hunlock⟩ | hmove⟩ := step_thread hs t
    · rw [hc] at ht
      cases c <;> exact Pc.noConfusion ht
    · exact (h.seen t (hstay ▸ ht)).snoc hno
    · rw [hunlock] at ht
      exact Pc.noConfusion ht
    · -- The state before the step is the one where the counter is zero or less.
      rw [ht] at hmove
      obtain ⟨htest, hcount⟩ := hmove.waitReturn
      have hsince := h.since t (by rw [htest]; exact trivial)
      have hseen : SeenDone n t es :=
        ⟨es, [], s, (List.append_nil es).symm, hsince, fun c hc => List.not_mem_nil hc, h.run,
          hcount⟩
      exact hseen.snoc hno

/-- Whenever `Wait` is about to return, the counter has been zero or less during the call. -/
theorem wait_returns {n : ℤ} {es : List Event} {s : State} (h : Run step anyStep (.new n) es s)
    {t : ℕ} (ht : s.pc t = .waitReturn) : SeenDone n t es := by
  have hstart : History n [] (.new n) := ⟨.nil, fun _ h => h.elim, fun _ h => Pc.noConfusion h⟩
  have hend : History n es s := h.history (I := History n) hstart fun _ _ _ _ h _ hs => h.step hs
  exact hend.seen t ht

/-! ## No wake-up is lost -/

/-- In a call of `Done`. -/
def Pc.InDone : Pc → Prop
  | doneTest | doneLock | doneNotify | doneUnlock => True
  | _ => False

/-- Between the acquisition of the mutex and its release. -/
def Pc.Holds : Pc → Prop
  | doneNotify | doneUnlock | waitTest | waitBlock | waitReturn => True
  | _ => False

/-- In `Done`, with the notification yet to come if the counter is zero or less. -/
def Pc.Notifies : Pc → Prop
  | doneTest | doneLock | doneNotify => True
  | _ => False

/-- In `Wait`, blocked until the next notification, or about to block. -/
def Pc.Waits : Pc → Prop
  | waitBlock | waitBlocked => True
  | _ => False

/-- The counter is zero or less, no thread is inside `Done`, and a thread is blocked that has not
been notified since it blocked. -/
def LostWakeup (s : State) : Prop :=
  s.count_ ≤ 0 ∧ (∀ t, ¬ (s.pc t).InDone) ∧ ∃ t, s.pc t = .waitBlocked

/-- The invariant. The mutex is held by the one thread that is between its acquisition and its
release. While a thread waits with the counter at zero or less, some thread is going to notify. -/
structure Inv (s : State) : Prop where
  holder : ∀ t, (s.pc t).Holds ↔ s.mux_ = some t
  notifier : s.count_ ≤ 0 → ∀ t, (s.pc t).Waits → ∃ u, (s.pc u).Notifies

/-- A move of thread `t` keeps its part of the ownership, and does not take the mutex from
another thread. -/
theorem Move.holder {n : ℤ} {t : ℕ} {p q : Pc} {m m' : Option ℕ} (h : Move n t p m q m')
    (hp : p.Holds ↔ m = some t) :
    (q.Holds ↔ m' = some t) ∧ ∀ u, u ≠ t → (m' = some u ↔ m = some u) := by
  cases h with
  | testDone => split_ifs <;> exact ⟨hp, fun _ _ => Iff.rfl⟩
  | testWait => split_ifs <;> exact ⟨hp, fun _ _ => Iff.rfl⟩
  | wake => exact ⟨hp, fun _ _ => Iff.rfl⟩
  | lockDone | lockWait | relock =>
    refine ⟨⟨fun _ => rfl, fun _ => trivial⟩, fun u hu => ?_⟩
    simp [hu.symm]
  | unlockDone | block | unlockWait =>
    have hm : m = some t := hp.mp trivial
    refine ⟨⟨fun h => h.elim, fun h => absurd h.symm (Option.some_ne_none t)⟩, fun u hu => ?_⟩
    simp [hm, hu.symm]

/-- A move with the counter at zero or less does not make its thread wait, and leaves the
notification to come. -/
theorem Move.notifier {n : ℤ} {t : ℕ} {p q : Pc} {m m' : Option ℕ} (h : Move n t p m q m')
    (hn : n ≤ 0) : (q.Waits → p.Waits) ∧ (p.Notifies → q.Notifies) := by
  cases h with
  | testDone =>
    rw [if_pos hn]
    exact ⟨fun h => h.elim, fun _ => trivial⟩
  | testWait =>
    rw [if_pos hn]
    exact ⟨fun h => h.elim, fun h => h.elim⟩
  | lockDone => exact ⟨fun h => h.elim, fun _ => trivial⟩
  | block => exact ⟨fun _ => trivial, fun h => h.elim⟩
  | wake | lockWait | relock | unlockDone | unlockWait => exact ⟨fun h => h.elim, fun h => h.elim⟩

/-- `Add` does not exceed the range of `int`: the condition on a step under which the counter
counts. -/
def AddsInRange (s : State) : Event → Prop
  | .call _ (.Add count) => 0 ≤ count ∧ s.count_ + count ≤ intMax
  | _ => True

/-- A counter that `Add` leaves at zero or less was so before. -/
theorem count_le_zero_of_add {n count : ℤ} (h₀ : 0 ≤ count) (h : n + count ≤ intMax)
    (hle : toInt (n + count) ≤ 0) : n ≤ 0 := by
  by_contra hn
  rw [toInt_of_nonneg (by omega) h] at hle
  omega

/-- The start of a call keeps the invariant: `Done` is going to notify, and the counter does not
become zero or less by `Add`. -/
theorem Inv.call {s : State} (h : Inv s) {t : ℕ} {c : Call} (hpc : s.pc t = .idle)
    (hG : AddsInRange s (.call t c)) : Inv (s.call t c) := by
  have hholds : ¬ c.pc.Holds := by cases c <;> exact id
  have hwaits : ¬ c.pc.Waits := by cases c <;> exact id
  have hmux : (s.call t c).mux_ = s.mux_ := by cases c <;> rfl
  have hpc' := State.pc_call c hpc
  refine ⟨fun u => ?_, fun hcount u hu => ?_⟩
  · rw [hpc', hmux]
    -- A thread in no call, and one that has just started a call, hold no mutex.
    by_cases hut : u = t
    · rw [hut, Function.update_self, ← h.holder t, hpc]
      exact ⟨fun h => (hholds h).elim, fun h => h.elim⟩
    · rw [Function.update_of_ne hut]
      exact h.holder u
  · have hut : u ≠ t := by
      rintro rfl
      rw [hpc', Function.update_self] at hu
      exact hwaits hu
    rw [hpc', Function.update_of_ne hut] at hu
    cases c with
    -- The counter was zero or less before, and the thread waited then.
    | Add count => exact h.notifier (count_le_zero_of_add hG.1 hG.2 hcount) u hu
    | Done count =>
      refine ⟨t, ?_⟩
      rw [hpc', Function.update_self]
      exact trivial
    | Wait =>
      obtain ⟨v, hv⟩ := h.notifier hcount u hu
      have hvt : v ≠ t := by
        rintro rfl
        rw [hpc] at hv
        exact hv
      refine ⟨v, ?_⟩
      rwa [hpc', Function.update_of_ne hvt]

/-- The notification keeps the invariant: it leaves no thread waiting, since no other thread is
about to block without the mutex. -/
theorem Inv.notify {s : State} (h : Inv s) {t : ℕ} (hpc : s.pc t = .doneNotify) :
    Inv (s.notifyAll.goto t .doneUnlock) := by
  -- The thread that notifies holds the mutex.
  have hmux : s.mux_ = some t := by
    rw [← h.holder t, hpc]
    exact trivial
  have hself : (s.notifyAll.goto t .doneUnlock).pc t = .doneUnlock := Function.update_self ..
  have hother : ∀ u, u ≠ t → (s.notifyAll.goto t .doneUnlock).pc u =
      if s.pc u = .waitBlocked then .waitRelock else s.pc u := fun u hut =>
    Function.update_of_ne hut _ _
  refine ⟨fun u => ?_, fun hcount u hu => ?_⟩
  · show _ ↔ s.mux_ = some u
    by_cases hut : u = t
    · rw [hut, hself]
      exact ⟨fun _ => hmux, fun _ => trivial⟩
    · rw [hother u hut, ← h.holder u]
      split_ifs with hblocked
      · rw [hblocked]
        exact Iff.rfl
      · exact Iff.rfl
  · by_cases hut : u = t
    · rw [hut, hself] at hu
      exact hu.elim
    · rw [hother u hut] at hu
      split_ifs at hu with hblocked
      · exact hu.elim
      · -- A thread that is about to block holds the mutex.
        have hblock : s.pc u = .waitBlock := by
          generalize s.pc u = p at hu hblocked
          cases p <;> first | rfl | exact hu.elim | exact absurd rfl hblocked
        have hu' : s.mux_ = some u := by
          rw [← h.holder u, hblock]
          exact trivial
        rw [hmux] at hu'
        exact absurd (Option.some.inj hu').symm hut

/-- A move keeps the invariant. -/
theorem Inv.move {s : State} (h : Inv s) {t : ℕ} {q : Pc} {m : Option ℕ}
    (hmove : Move s.count_ t (s.pc t) s.mux_ q m) : Inv (s.move t q m) := by
  have hself : (s.move t q m).pc t = q := Function.update_self ..
  have hother : ∀ u, u ≠ t → (s.move t q m).pc u = s.pc u := fun u hut =>
    Function.update_of_ne hut _ _
  obtain ⟨hholder, hmux⟩ := hmove.holder (h.holder t)
  refine ⟨fun u => ?_, fun hcount u hu => ?_⟩
  · show _ ↔ m = some u
    by_cases hut : u = t
    · rw [hut, hself]
      exact hholder
    · rw [hother u hut, hmux u hut]
      exact h.holder u
  · obtain ⟨hwaits, hnotifies⟩ := hmove.notifier hcount
    have hu' : (s.pc u).Waits := by
      by_cases hut : u = t
      · rw [hut, hself] at hu
        rw [hut]
        exact hwaits hu
      · rwa [hother u hut] at hu
    -- The thread that is going to notify still is, whether it is the one that moves or not.
    obtain ⟨v, hv⟩ := h.notifier hcount u hu'
    refine ⟨v, ?_⟩
    by_cases hvt : v = t
    · rw [hvt, hself]
      exact hnotifies (hvt ▸ hv)
    · rwa [hother v hvt]

/-- The invariant holds of a new wait group. -/
theorem Inv.new (n : ℤ) : Inv (.new n) :=
  ⟨fun t => ⟨fun h => h.elim, fun h => absurd h.symm (Option.some_ne_none t)⟩, fun _ _ h => h.elim⟩

/-- The invariant holds in every state of a run whose additions are in range. -/
theorem inv_of_run {n : ℤ} {es : List Event} {s : State} (h : Run step AddsInRange (.new n) es s) :
    Inv s := by
  refine h.invariant (Inv.new n) fun s e s' hs hG hstep => ?_
  obtain ⟨t, c, rfl, hpc, rfl⟩ | ⟨t, -, hpc, rfl⟩ | ⟨t, q, m, -, hmove, rfl⟩ := step_cases hstep
  · exact hs.call hpc hG
  · exact hs.notify hpc
  · exact hs.move hmove

/-- No wake-up is lost in a run whose additions are in range. -/
theorem no_lost_wakeup {n : ℤ} {es : List Event} {s : State}
    (h : Run step AddsInRange (.new n) es s) : ¬ LostWakeup s := by
  rintro ⟨hcount, hdone, t, ht⟩
  -- The thread that is going to notify is inside `Done`.
  obtain ⟨u, hu⟩ := (inv_of_run h).notifier hcount t (by rw [ht]; exact trivial)
  refine hdone u ?_
  generalize s.pc u = p at hu
  cases p <;> first | exact trivial | exact hu.elim

/-! ## The wait group -/

/-- Any number of threads, in any interleaving: `Wait` returns only if the counter was zero or less
at some moment during the call, and no wake-up is lost as long as no `Add` exceeds the range of
`int`. -/
theorem wait_group_spec (initialCount : ℤ) :
    (∀ es s t, Run step anyStep (.new initialCount) es s → s.pc t = .waitReturn →
      SeenDone initialCount t es) ∧
    ∀ es s, Run step AddsInRange (.new initialCount) es s → ¬ LostWakeup s :=
  ⟨fun _ _ _ h ht => wait_returns h ht, fun _ _ h => no_lost_wakeup h⟩

/-- Thread 0 waits for a counter of zero, and returns; thread 1 adds one and is done. -/
theorem wait_group_spec_two :
    SeenDone 0 0 [.call 0 .Wait, .next 0, .next 0] ∧
      ∃ s, exec step (.new 0) [.call 1 (.Add 1), .call 1 (.Done 1)] = some s ∧ ¬ LostWakeup s := by
  have hwait : Run step anyStep (.new 0) [.call 0 .Wait, .next 0, .next 0] _ := .of_exec rfl
  have hadd : Run step AddsInRange (.new 0) [.call 1 (.Add 1)] _ :=
    .snoc .nil ⟨by decide, by decide⟩ rfl
  have hdone : Run step AddsInRange (.new 0) [.call 1 (.Add 1), .call 1 (.Done 1)] _ :=
    .snoc hadd trivial rfl
  exact ⟨(wait_group_spec 0).1 _ _ 0 hwait rfl, _, rfl, (wait_group_spec 0).2 _ _ hdone⟩

/-- The counts that the calls are given in the runs that are meant. -/
def CountsNonneg (_ : State) : Event → Prop
  | .call _ (.Add count) | .call _ (.Done count) => 0 ≤ count ∧ count ≤ intMax
  | _ => True

/-- A wake-up is lost when `Add` wraps: thread 0 blocks on a counter of one, and thread 1 adds the
greatest `int`. -/
theorem lostWakeup_of_wrap :
    ∃ s, Run step CountsNonneg (.new 1)
      [.call 0 .Wait, .next 0, .next 0, .next 0, .call 1 (.Add intMax)] s ∧ LostWakeup s := by
  have hcall : Run step CountsNonneg (.new 1) [.call 0 .Wait] _ := .snoc .nil trivial rfl
  have hlock : Run step CountsNonneg (.new 1) [.call 0 .Wait, .next 0] _ := .snoc hcall trivial rfl
  have htest : Run step CountsNonneg (.new 1) [.call 0 .Wait, .next 0, .next 0] _ :=
    .snoc hlock trivial rfl
  have hblock : Run step CountsNonneg (.new 1) [.call 0 .Wait, .next 0, .next 0, .next 0] _ :=
    .snoc htest trivial rfl
  refine ⟨_, .snoc hblock ⟨by decide, by decide⟩ rfl, by decide, fun t hdone => ?_, 0, rfl⟩
  -- Every thread is blocked or in no call.
  by_cases ht : t = 0
  · rw [ht] at hdone
    exact hdone
  · have hpc : Pc.InDone .idle := by
      simpa [State.call, State.unlock, State.goto, State.new, Function.update_of_ne ht] using hdone
    exact hpc

end CxxPandora.WaitGroup
