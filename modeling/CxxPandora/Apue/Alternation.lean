import CxxPandora.Lib.Machine
import Mathlib.Logic.Function.Basic

/-!
# Parent and child taking turns

The two processes of `linux/apue.3e.exs/apue3/Chapter15/exercise_15.c`, which increment a shared
counter in turns and signal each other. A signal is a bit that is pending until it is delivered, and
it can be delivered whenever it is not blocked. `TELL_WAIT` blocks the signals before the `fork`,
but the first wait of a process goes back to the mask of before. From then on a signal that is
delivered between the test of `sigflag` and the call of `sigsuspend` does not end the `sigsuspend`:
`exec_stuck` is such a run. `takesTurns_of_orderly` says that nothing else goes wrong.
-/

namespace CxxPandora.Apue.Alternation

open Lib

/-! ## The model -/

/-- The two processes. -/
inductive Process
  | parent
  | child
  deriving DecidableEq, Repr

/-- The other process. -/
def Process.peer : Process → Process
  | parent => child
  | child => parent

/-- Where a process is. -/
inductive Pc
  /-- In `update`, about to read the counter. -/
  | load
  /-- In `update`, about to write the counter. -/
  | store
  /-- About to send the signal. -/
  | tell
  /-- About to test `sigflag`. -/
  | test
  /-- It has found `sigflag` zero, and is about to call `sigsuspend`. -/
  | suspend
  /-- In `sigsuspend`. -/
  | sleep
  /-- It has found `sigflag` set, and is about to clear it. -/
  | clear
  /-- About to go back to the mask of before. -/
  | restore
  /-- The parent waits for the end of the child. -/
  | reap
  /-- It has exited after the loop. -/
  | exited
  /-- It has exited because the counter was not what it expected. -/
  | quit
  deriving DecidableEq, Repr

/-- A process: its loop variable, what `update` has read, its `sigflag`, whether its mask blocks the
signal that it waits for, and whether that signal is pending. -/
structure Proc where
  pc : Pc
  i : ℕ
  value : ℕ
  sigflag : Bool
  blocked : Bool
  pending : Bool
  deriving DecidableEq, Repr

/-- The shared counter, what `update` has returned to whom so far, and the processes. -/
structure State where
  counter : ℕ
  log : List (Process × ℕ)
  proc : Process → Proc

/-- After `TELL_WAIT` and `fork`. -/
def State.start : State where
  counter := 0
  log := []
  proc
    | .parent => ⟨.load, 0, 0, false, true, false⟩
    | .child => ⟨.test, 1, 0, false, true, false⟩

/-- `NLOOPS`. -/
def nloops : ℕ := 1000

/-- The process is in another state. -/
def State.put (s : State) (r : Process) (x : Proc) : State :=
  { s with proc := Function.update s.proc r x }

/-- `kill`: the signal is pending. -/
def State.kill (s : State) (r : Process) : State := s.put r { s.proc r with pending := true }

/-- The process after the signal is sent: the parent waits, and the loop of the child goes on. -/
def afterTell : Process → Proc → Proc
  | .parent, x => { x with pc := .test }
  | .child, x => { x with i := x.i + 2, pc := if x.i + 2 < nloops + 1 then .test else .exited }

/-- The process after it has waited: the loop of the parent goes on, and the child updates. -/
def afterWait : Process → Proc → Proc
  | .parent, x => { x with i := x.i + 2, pc := if x.i + 2 < nloops then .load else .reap }
  | .child, x => { x with pc := .load }

/-- What happens next. -/
inductive Event
  /-- A process goes on. -/
  | run (r : Process)
  /-- The signal of a process is delivered. -/
  | deliver (r : Process)
  deriving DecidableEq, Repr

/-- The next step of a process. The mask of before is `oldmask`. -/
def State.run (oldmask : Process → Bool) (s : State) (r : Process) : Option State :=
  let x := s.proc r
  match x.pc with
  | .load => some (s.put r { x with pc := .store, value := s.counter })
  | .store =>
    some { s.put r { x with pc := if x.value = x.i then .tell else .quit } with
      counter := x.value + 1
      log := s.log ++ [(r, x.value)] }
  | .tell => some ((s.put r (afterTell r x)).kill r.peer)
  | .test => some (s.put r { x with pc := if x.sigflag then .clear else .suspend })
  | .suspend => some (s.put r { x with pc := .sleep })
  -- Only a signal ends `sigsuspend`.
  | .sleep => none
  | .clear => some (s.put r { x with pc := .restore, sigflag := false })
  | .restore => some (s.put r (afterWait r { x with blocked := oldmask r }))
  | .reap =>
    if (s.proc r.peer).pc = .exited ∨ (s.proc r.peer).pc = .quit then
      some (s.put r { x with pc := .exited })
    else none
  | .exited | .quit => none

/-- The handler of the signal runs. It ends `sigsuspend`, which has no signal blocked. -/
def State.deliver (s : State) (r : Process) : Option State :=
  let x := s.proc r
  if x.pending ∧ (x.pc = .sleep ∨ ¬x.blocked) ∧ x.pc ≠ .exited ∧ x.pc ≠ .quit then
    some (s.put r { x with
      pending := false
      sigflag := true
      pc := if x.pc = .sleep then .test else x.pc })
  else none

/-- One step. -/
def step (oldmask : Process → Bool) (s : State) : Event → Option State
  | .run r => s.run oldmask r
  | .deliver r => s.deliver r

/-! ## Turns -/

/-- The process that makes the update that returns `n`. -/
def turn (n : ℕ) : Process := if n % 2 = 0 then .parent else .child

/-- The process is in one of the waits, and has not found `sigflag` set. -/
def Proc.Waits (x : Proc) : Prop := x.pc = .test ∨ x.pc = .suspend ∨ x.pc = .sleep

/-- No signal has come to the process, neither pending nor delivered. -/
def Proc.Idle (x : Proc) : Prop := x.sigflag = false ∧ x.pending = false

/-- The process waits and does not get on: no signal is pending, and `sigflag` is not set. -/
def Proc.Halted (x : Proc) : Prop :=
  x.Waits ∧ x.pending = false ∧ (x.pc = .test → x.sigflag = false)

/-- The process is suspended and no signal is pending for it; nor will one be sent, because the
other one has exited, waits for its end, or waits in turn and does not get on. -/
def State.Stuck (s : State) (r : Process) : Prop :=
  (s.proc r).pc = .sleep ∧ (s.proc r).pending = false ∧
    ((s.proc r.peer).pc = .exited ∨ (s.proc r.peer).pc = .quit ∨ (s.proc r.peer).pc = .reap ∨
      (s.proc r.peer).Halted)

/-- What the processes are meant to do: the updates return 0, 1, 2 and so on, to the parent and the
child in turns, and no process is stuck. -/
def State.TakesTurns (s : State) : Prop :=
  s.log = (List.range s.counter).map (fun n => (turn n, n)) ∧
    ∀ r, (s.proc r).pc ≠ .quit ∧ ¬s.Stuck r

/-- No signal is delivered between a test that has found `sigflag` zero and the `sigsuspend`. -/
def Orderly (s : State) : Event → Prop
  | .run _ => True
  | .deliver r => (s.proc r).pc ≠ .suspend

/-! ## Whose turn it is -/

/-- The value that the next update of a process is to return. -/
def due : Process → Proc → ℕ
  | .parent, x =>
    match x.pc with
    | .tell | .test | .suspend | .sleep | .clear | .restore => x.i + 2
    | _ => x.i
  | .child, x =>
    match x.pc with
    | .tell => x.i + 2
    | _ => x.i

/-- The process waits for its turn, or is a child that has made its last update. -/
def Rests (r : Process) (x : Proc) : Prop :=
  x.Idle ∧ (x.Waits ∧ (r = .child → x.i < nloops + 1) ∨
    r = .child ∧ x.pc = .exited ∧ nloops < x.i)

/-- The process makes its update, or is a parent after its last one. -/
def Goes (n : ℕ) (r : Process) (x : Proc) : Prop :=
  x.Idle ∧ (x.pc = .restore ∨ x.pc = .load ∧ n < nloops ∨
    x.pc = .store ∧ n < nloops ∧ x.value = n ∨
    r = .parent ∧ nloops ≤ n ∧ (x.pc = .reap ∨ x.pc = .exited))

/-- Where the turn is on its way from `p` to `q`, which is the process `r` and is to make the update
that returns `n`. -/
inductive Phase (n : ℕ) (r : Process) (q p : Proc) : Prop
  /-- The signal is to be sent. -/
  | told (hp : p.pc = .tell) (hidle : p.Idle) (hq : q.Waits) (hidle' : q.Idle)
  /-- The signal is pending. -/
  | pending (hp : Rests r.peer p) (hq : q.Waits) (hflag : q.sigflag = false)
      (hpending : q.pending = true)
  /-- The signal has been delivered. -/
  | flagged (hp : Rests r.peer p) (hq : q.pc = .test ∨ q.pc = .clear) (hflag : q.sigflag = true)
      (hpending : q.pending = false)
  /-- The wait is over. -/
  | going (hp : Rests r.peer p) (hq : Goes n r q)

/-- The turn of the update that returns `n`, which the process `r` is to make. -/
structure Turn (n : ℕ) (r : Process) (q p : Proc) : Prop where
  turn_eq : turn n = r
  le_nloops : n ≤ nloops
  due_eq : due r q = n
  due_peer : due r.peer p = n + 1
  phase : Phase n r q p

/-- The invariant: the updates so far, and the turn. -/
structure Inv (s : State) : Prop where
  log_eq : s.log = (List.range s.counter).map fun n => (turn n, n)
  hasTurn : Turn s.counter (turn s.counter) (s.proc (turn s.counter)) (s.proc (turn s.counter).peer)

/-- The other process of the other process. -/
@[simp]
theorem peer_peer (r : Process) : r.peer.peer = r := by cases r <;> rfl

/-- The other process is another one. -/
theorem peer_ne (r : Process) : r.peer ≠ r := by cases r <;> decide

/-- There are two processes. -/
theorem eq_or_eq_peer (r t : Process) : t = r ∨ t = r.peer := by cases r <;> cases t <;> decide

/-- The turns alternate. -/
theorem turn_succ (n : ℕ) : turn (n + 1) = (turn n).peer := by
  unfold turn
  split_ifs
  · omega
  · rfl
  · rfl
  · omega

/-- The process that has been put. -/
@[simp]
theorem put_proc (s : State) (r : Process) (x : Proc) : (s.put r x).proc r = x :=
  Function.update_self ..

/-- The other process stays. -/
@[simp]
theorem put_proc_peer (s : State) (r : Process) (x : Proc) :
    (s.put r x).proc r.peer = s.proc r.peer :=
  Function.update_of_ne (peer_ne r) ..

/-- The process stays when the other one is put. -/
@[simp]
theorem put_peer_proc (s : State) (r : Process) (x : Proc) :
    (s.put r.peer x).proc r = s.proc r :=
  Function.update_of_ne (peer_ne r).symm ..

section Steps

variable {oldmask : Process → Bool} {s s' : State} {n : ℕ} {r t : Process} {p p' q x : Proc}

/-- A waiting process to which no signal has been delivered goes on to sleep. -/
theorem run_waits (hwaits : (s.proc t).Waits) (hflag : (s.proc t).sigflag = false)
    (hstep : s.run oldmask t = some s') :
    ∃ pc, (pc = .suspend ∨ pc = .sleep) ∧ s' = s.put t { s.proc t with pc := pc } := by
  unfold State.run at hstep
  rcases hwaits with hpc | hpc | hpc <;> simp only [hpc] at hstep
  · rw [if_neg (by rw [hflag]; exact Bool.false_ne_true)] at hstep
    exact ⟨.suspend, Or.inl rfl, (Option.some.inj hstep).symm⟩
  · exact ⟨.sleep, Or.inr rfl, (Option.some.inj hstep).symm⟩
  · cases hstep

/-- It waits for the same turn then. -/
theorem due_waits {pc : Pc} (hwaits : x.Waits) (hpc : pc = .suspend ∨ pc = .sleep) :
    due t { x with pc := pc } = due t x := by
  unfold due
  rcases hwaits with hx | hx | hx <;> rcases hpc with rfl | rfl <;> cases t <;> simp only [hx]

/-- It still waits. -/
theorem waits_of_pc {pc : Pc} (hpc : pc = .suspend ∨ pc = .sleep) :
    Proc.Waits { x with pc := pc } := Or.inr hpc

/-- A process that rests is not about to send the signal. -/
theorem Rests.pc_ne_tell (h : Rests t x) : x.pc ≠ .tell := by
  rcases h.2 with ⟨h | h | h, -⟩ | ⟨-, h, -⟩ <;> rw [h] <;> decide

/-- When the signal has been sent, the other process rests. -/
theorem Phase.rests (h : Phase n r q p) (hp : p.pc ≠ .tell) : Rests r.peer p := by
  cases h with
  | told htell => exact absurd htell hp
  | pending hp | flagged hp | going hp => exact hp

/-- It may go on in its wait. -/
theorem Phase.of_rests (h : Phase n r q p) (hp : p.pc ≠ .tell) (hp' : Rests r.peer p') :
    Phase n r q p' := by
  cases h with
  | told htell => exact absurd htell hp
  | pending _ hq hflag hpending => exact .pending hp' hq hflag hpending
  | flagged _ hq hflag hpending => exact .flagged hp' hq hflag hpending
  | going _ hq => exact .going hp' hq

/-- The process that has sent the signal waits, or its loop has ended. -/
theorem rests_afterTell (hidle : x.Idle) : Rests t (afterTell t x) := by
  refine ⟨by cases t <;> exact hidle, ?_⟩
  cases t with
  | parent => exact Or.inl ⟨Or.inl rfl, fun h => by cases h⟩
  | child =>
    unfold afterTell
    dsimp only
    split_ifs with hloop
    · exact Or.inl ⟨Or.inl rfl, fun _ => hloop⟩
    · exact Or.inr ⟨rfl, rfl, by omega⟩

/-- It waits for the turn after the next one. -/
theorem due_afterTell (hx : x.pc = .tell) : due t (afterTell t x) = due t x := by
  unfold due afterTell
  cases t with
  | parent => simp only [hx]
  | child =>
    simp only [hx]
    split_ifs <;> rfl

/-- A step of the process whose turn it is not. -/
theorem Turn.run_peer (h : Turn n r (s.proc r) (s.proc r.peer))
    (hstep : s.run oldmask r.peer = some s') :
    s'.counter = s.counter ∧ s'.log = s.log ∧ Turn n r (s'.proc r) (s'.proc r.peer) := by
  obtain ⟨hturn, hle, hdue, hdue', hphase⟩ := h
  by_cases htell : (s.proc r.peer).pc = .tell
  · -- The signal is sent.
    have hs' : s' = (s.put r.peer (afterTell r.peer (s.proc r.peer))).kill r := by
      simp only [State.run, htell, peer_peer] at hstep
      exact (Option.some.inj hstep).symm
    have hq : s'.proc r = { s.proc r with pending := true } := by
      rw [hs', State.kill, put_proc, put_peer_proc]
    have hp : s'.proc r.peer = afterTell r.peer (s.proc r.peer) := by
      rw [hs', State.kill, put_proc_peer, put_proc]
    refine ⟨by rw [hs']; rfl, by rw [hs']; rfl, hturn, hle, ?_, ?_, ?_⟩
    · rw [hq]
      cases r <;> exact hdue
    · rw [hp, due_afterTell htell, hdue']
    · rw [hq, hp]
      cases hphase with
      | told _ hidle hq hidle' => exact .pending (rests_afterTell hidle) hq hidle'.1 rfl
      | pending hp | flagged hp | going hp => exact absurd htell hp.pc_ne_tell
  · have hrests := hphase.rests htell
    rcases hrests.2 with ⟨hwaits, hi⟩ | ⟨-, hexited, -⟩
    · obtain ⟨pc, hpc, rfl⟩ := run_waits hwaits hrests.1.1 hstep
      refine ⟨rfl, rfl, hturn, hle, ?_, ?_, ?_⟩
      · rw [put_peer_proc, hdue]
      · rw [put_proc, due_waits hwaits hpc, hdue']
      · rw [put_peer_proc, put_proc]
        exact hphase.of_rests htell ⟨hrests.1, Or.inl ⟨waits_of_pc hpc, hi⟩⟩
    · simp only [State.run, hexited] at hstep
      cases hstep

/-- The process whose turn it is may go on as long as its update is due. -/
theorem Turn.put (h : Turn n r (s.proc r) (s.proc r.peer)) (hdue : due r q = due r (s.proc r))
    (hphase : Phase n r q (s.proc r.peer)) :
    Turn n r ((s.put r q).proc r) ((s.put r q).proc r.peer) := by
  rw [put_proc, put_proc_peer]
  exact ⟨h.turn_eq, h.le_nloops, hdue.trans h.due_eq, h.due_peer, hphase⟩

/-- It may go on in its wait. -/
theorem Phase.of_waits {pc : Pc} (h : Phase n r q p) (hwaits : q.Waits) (hflag : q.sigflag = false)
    (hpc : pc = .suspend ∨ pc = .sleep) : Phase n r { q with pc := pc } p := by
  cases h with
  | told hp hidle _ hidle' => exact .told hp hidle (waits_of_pc hpc) hidle'
  | pending hp _ hflag hpending => exact .pending hp (waits_of_pc hpc) hflag hpending
  | flagged _ _ hflag' => exact absurd (hflag.symm.trans hflag') Bool.false_ne_true
  | going _ hq =>
    rcases hq.2 with hq | ⟨hq, -⟩ | ⟨hq, -⟩ | ⟨-, -, hq | hq⟩ <;>
      rcases hwaits with hw | hw | hw <;> rw [hw] at hq <;> cases hq

/-- After the wait the parent makes its next update or has made its last one, and the child makes
its update. -/
theorem goes_afterWait (hturn : turn n = r) (hle : n ≤ nloops) (hdue : due r x = n)
    (hx : x.pc = .restore) (hidle : x.Idle) : Goes n r (afterWait r x) := by
  refine ⟨by cases r <;> exact hidle, ?_⟩
  cases r with
  | parent =>
    unfold due at hdue
    simp only [hx] at hdue
    unfold afterWait
    dsimp only
    split_ifs with hloop
    · exact Or.inr (Or.inl ⟨rfl, by omega⟩)
    · exact Or.inr (Or.inr (Or.inr ⟨rfl, by omega, Or.inl rfl⟩))
  | child =>
    refine Or.inr (Or.inl ⟨rfl, ?_⟩)
    -- It is an odd update, and the number of updates is even.
    unfold turn at hturn
    split_ifs at hturn with heven
    unfold nloops at hle ⊢
    omega

/-- The update that is due does not change then. -/
theorem due_afterWait (hx : x.pc = .restore) : due r (afterWait r x) = due r x := by
  unfold due afterWait
  cases r with
  | parent =>
    simp only [hx]
    split_ifs <;> rfl
  | child => simp only [hx]

/-- A step of the process whose turn it is, before it makes the update or after its last one. -/
theorem Turn.run_self (h : Turn s.counter r (s.proc r) (s.proc r.peer))
    (hstore : (s.proc r).pc ≠ .store) (hstep : s.run oldmask r = some s') :
    s'.counter = s.counter ∧ s'.log = s.log ∧ Turn s.counter r (s'.proc r) (s'.proc r.peer) := by
  have hwait : (s.proc r).Waits → (s.proc r).sigflag = false → s'.counter = s.counter ∧
      s'.log = s.log ∧ Turn s.counter r (s'.proc r) (s'.proc r.peer) := by
    intro hwaits hflag
    obtain ⟨pc, hpc, rfl⟩ := run_waits hwaits hflag hstep
    exact ⟨rfl, rfl, h.put (due_waits hwaits hpc) (h.phase.of_waits hwaits hflag hpc)⟩
  cases h.phase with
  | told _ _ hq hidle' => exact hwait hq hidle'.1
  | pending _ hq hflag => exact hwait hq hflag
  | flagged hp hq hflag hpending =>
    rcases hq with hq | hq <;> simp only [State.run, hq] at hstep
    · rw [if_pos hflag] at hstep
      obtain rfl := Option.some.inj hstep
      refine ⟨rfl, rfl, h.put ?_ (.flagged hp (Or.inr rfl) hflag hpending)⟩
      unfold due
      cases r <;> simp only [hq]
    · obtain rfl := Option.some.inj hstep
      refine ⟨rfl, rfl, h.put ?_ (.going hp ⟨⟨rfl, hpending⟩, Or.inl rfl⟩)⟩
      unfold due
      cases r <;> simp only [hq]
  | going hp hq =>
    obtain ⟨hidle, hq | ⟨hq, hlt⟩ | ⟨hq, -⟩ | ⟨hparent, hend, hq | hq⟩⟩ := hq
    · have hrun : s.run oldmask r =
          some (s.put r (afterWait r { s.proc r with blocked := oldmask r })) := by
        simp only [State.run, hq]
      obtain rfl := Option.some.inj (hstep.symm.trans hrun)
      have hpc : Proc.pc { s.proc r with blocked := oldmask r } = .restore := hq
      have hdue : due r { s.proc r with blocked := oldmask r } = due r (s.proc r) := by
        cases r <;> rfl
      refine ⟨rfl, rfl, h.put ((due_afterWait hpc).trans hdue) (.going hp ?_)⟩
      exact goes_afterWait h.turn_eq h.le_nloops (hdue.trans h.due_eq) hq hidle
    · simp only [State.run, hq] at hstep
      obtain rfl := Option.some.inj hstep
      refine ⟨rfl, rfl, h.put ?_ (.going hp ⟨hidle, Or.inr (Or.inr (Or.inl ⟨rfl, hlt, rfl⟩))⟩)⟩
      unfold due
      cases r <;> simp only [hq]
    · exact absurd hq hstore
    · simp only [State.run, hq, Option.ite_none_right_eq_some] at hstep
      obtain rfl := Option.some.inj hstep.2
      refine ⟨rfl, rfl, h.put ?_
        (.going hp ⟨hidle, Or.inr (Or.inr (Or.inr ⟨hparent, hend, Or.inr rfl⟩))⟩)⟩
      unfold due
      cases r <;> simp only [hq]
    · simp only [State.run, hq] at hstep
      cases hstep

/-- The update passes the turn on. -/
theorem Turn.run_store (h : Turn s.counter r (s.proc r) (s.proc r.peer))
    (hstore : (s.proc r).pc = .store) (hstep : s.run oldmask r = some s') :
    s'.counter = s.counter + 1 ∧ s'.log = s.log ++ [(r, s.counter)] ∧
      Turn (s.counter + 1) r.peer (s'.proc r.peer) (s'.proc r) := by
  obtain ⟨hturn, hle, hdue, hdue', hphase⟩ := h
  obtain ⟨hp, hidle, hlt, hvalue⟩ : Rests r.peer (s.proc r.peer) ∧ (s.proc r).Idle ∧
      s.counter < nloops ∧ (s.proc r).value = s.counter := by
    cases hphase with
    | told _ _ hq | pending _ hq => rcases hq with hq | hq | hq <;> rw [hstore] at hq <;> cases hq
    | flagged _ hq => rcases hq with hq | hq <;> rw [hstore] at hq <;> cases hq
    | going hp hq =>
      obtain ⟨hidle, hq | ⟨hq, -⟩ | ⟨-, hlt, hvalue⟩ | ⟨-, -, hq | hq⟩⟩ := hq
      · rw [hstore] at hq
        cases hq
      · rw [hstore] at hq
        cases hq
      · exact ⟨hp, hidle, hlt, hvalue⟩
      · rw [hstore] at hq
        cases hq
      · rw [hstore] at hq
        cases hq
  have hi : (s.proc r).i = s.counter := by
    rw [← hdue]
    unfold due
    cases r <;> simp only [hstore]
  have hrun : s.run oldmask r = some { s.put r { s.proc r with pc := .tell } with
      counter := s.counter + 1, log := s.log ++ [(r, s.counter)] } := by
    simp only [State.run, hstore, hvalue, hi, if_true]
  obtain rfl := Option.some.inj (hstep.symm.trans hrun)
  have hq' : (s.put r { s.proc r with pc := .tell }).proc r = { s.proc r with pc := .tell } :=
    put_proc ..
  have hp' : (s.put r { s.proc r with pc := .tell }).proc r.peer = s.proc r.peer :=
    put_proc_peer ..
  refine ⟨rfl, rfl, ?_⟩
  show Turn (s.counter + 1) r.peer ((s.put r _).proc r.peer) ((s.put r _).proc r)
  rw [hq', hp']
  refine ⟨hturn ▸ turn_succ _, hlt, hdue', ?_, .told rfl hidle ?_ hp.1⟩
  · rw [peer_peer]
    unfold due
    cases r <;> exact congrArg (· + 2) hi
  · rcases hp.2 with ⟨hwaits, -⟩ | ⟨hr, hexited, hend⟩
    · exact hwaits
    · -- A child that has exited has made the last update.
      rw [hr] at hdue' hexited hend
      unfold due at hdue'
      simp only [hexited] at hdue'
      omega

/-- A signal is delivered to the process whose turn it is. -/
theorem Turn.deliver (h : Turn n r (s.proc r) (s.proc r.peer))
    (hsuspend : (s.proc t).pc ≠ .suspend) (hstep : s.deliver t = some s') :
    s'.counter = s.counter ∧ s'.log = s.log ∧ Turn n r (s'.proc r) (s'.proc r.peer) := by
  simp only [State.deliver, Option.ite_none_right_eq_some] at hstep
  obtain ⟨⟨hpending, -⟩, hstep⟩ := hstep
  obtain rfl := Option.some.inj hstep
  have hphase := h.phase
  rcases eq_or_eq_peer r t with rfl | rfl
  · cases hphase with
    | told _ _ _ hidle' => exact absurd (hpending.symm.trans hidle'.2) (by decide)
    | flagged _ _ _ hpending' => exact absurd (hpending.symm.trans hpending') (by decide)
    | going _ hq => exact absurd (hpending.symm.trans hq.1.2) (by decide)
    | pending hp hq =>
      rcases hq with hq | hq | hq
      · refine ⟨rfl, rfl, h.put ?_ (.flagged hp (Or.inl ?_) rfl rfl)⟩
        · unfold due
          cases t <;> simp [hq]
        · simp [hq]
      · exact absurd hq hsuspend
      · refine ⟨rfl, rfl, h.put ?_ (.flagged hp (Or.inl ?_) rfl rfl)⟩
        · unfold due
          cases t <;> simp [hq]
        · simp [hq]
  · cases hphase with
    | told _ hidle => exact absurd (hpending.symm.trans hidle.2) (by decide)
    | pending hp | flagged hp | going hp => exact absurd (hpending.symm.trans hp.1.2) (by decide)

end Steps

/-! ## Every run -/

section Runs

variable {oldmask : Process → Bool} {s s' : State} {e : Event} {es : List Event}

/-- The turn at the start. -/
theorem inv_start : Inv .start where
  log_eq := rfl
  hasTurn := by
    refine ⟨rfl, by decide, rfl, rfl, .going ⟨⟨rfl, rfl⟩, ?_⟩ ?_⟩
    · exact Or.inl ⟨Or.inl rfl, fun _ => by decide⟩
    · exact ⟨⟨rfl, rfl⟩, Or.inr (Or.inl ⟨rfl, by decide⟩)⟩

/-- A step that is orderly keeps the invariant. -/
theorem inv_step (h : Inv s) (horderly : Orderly s e) (hstep : step oldmask s e = some s') :
    Inv s' := by
  obtain ⟨hlog, hturn⟩ := h
  -- Most steps make no update.
  have hstay : s'.counter = s.counter ∧ s'.log = s.log ∧ Turn s.counter (turn s.counter)
      (s'.proc (turn s.counter)) (s'.proc (turn s.counter).peer) → Inv s' := by
    rintro ⟨hcounter, hlog', hturn'⟩
    refine ⟨?_, ?_⟩
    · rw [hcounter, hlog', hlog]
    · rw [hcounter]
      exact hturn'
  cases e with
  | deliver t => exact hstay (hturn.deliver horderly hstep)
  | run t =>
    rcases eq_or_eq_peer (turn s.counter) t with rfl | rfl
    · by_cases hstore : (s.proc (turn s.counter)).pc = .store
      · obtain ⟨hcounter, hlog', hturn'⟩ := hturn.run_store hstore hstep
        refine ⟨?_, ?_⟩
        · rw [hcounter, hlog', hlog, List.range_succ, List.map_append]
          rfl
        · rw [hcounter, turn_succ, peer_peer]
          exact hturn'
      · exact hstay (hturn.run_self hstore hstep)
    · exact hstay (hturn.run_peer hstep)

/-- A process that waits has neither exited nor quit, and has not left the loop. -/
theorem Proc.Waits.ne {x : Proc} (h : x.Waits) :
    x.pc ≠ .exited ∧ x.pc ≠ .quit ∧ x.pc ≠ .reap := by
  rcases h with h | h | h <;> rw [h] <;> decide

/-- When the parent has left its loop, the child waits for no turn. -/
theorem not_sleep_of_nloops_le (hp : Rests .child x) (hdue : due .child x = n + 1)
    (hend : nloops ≤ n) : x.pc ≠ .sleep := by
  intro hsleep
  rcases hp.2 with ⟨-, hi⟩ | ⟨-, hexited, -⟩
  · have hlt : x.i < nloops + 1 := hi rfl
    unfold due at hdue
    simp only [hsleep] at hdue
    omega
  · rw [hsleep] at hexited
    cases hexited

/-- Whoever sleeps without a signal waits for one that will come. -/
theorem Turn.not_stuck (h : Turn n r (s.proc r) (s.proc r.peer)) (t : Process) : ¬s.Stuck t := by
  rintro ⟨hsleep, hpending, hpeer⟩
  have hdue' := h.due_peer
  rcases eq_or_eq_peer r t with rfl | rfl
  · cases h.phase with
    | told hp =>
      -- The other process is about to send it.
      simp [hp, Proc.Halted, Proc.Waits] at hpeer
    | pending _ _ _ hpending' => exact absurd (hpending.symm.trans hpending') (by decide)
    | flagged _ hq => simp [hsleep] at hq
    | going _ hq => simp [Goes, hsleep] at hq
  · rw [peer_peer] at hpeer
    cases h.phase with
    | told hp => simp [hsleep] at hp
    | pending _ hq _ hpending' => simp [hq.ne, Proc.Halted, hpending'] at hpeer
    | flagged _ hq hflag =>
      rcases hq with hq | hq
      · simp [hq, Proc.Halted, Proc.Waits, hflag] at hpeer
      · simp [hq, Proc.Halted, Proc.Waits, hflag] at hpeer
    | going hp hq =>
      obtain ⟨-, hq | ⟨hq, -⟩ | ⟨hq, -⟩ | ⟨rfl, hend, -⟩⟩ := hq
      · simp [hq, Proc.Halted, Proc.Waits] at hpeer
      · simp [hq, Proc.Halted, Proc.Waits] at hpeer
      · simp [hq, Proc.Halted, Proc.Waits] at hpeer
      · -- The parent waits for the end of the child, or has exited.
        exact not_sleep_of_nloops_le hp hdue' hend hsleep

/-- No process has found another value than the one that it expected. -/
theorem Turn.pc_ne_quit (h : Turn n r (s.proc r) (s.proc r.peer)) (t : Process) :
    (s.proc t).pc ≠ .quit := by
  rcases eq_or_eq_peer r t with rfl | rfl
  · cases h.phase with
    | told _ _ hq | pending _ hq => exact hq.ne.2.1
    | flagged _ hq => rcases hq with hq | hq <;> rw [hq] <;> decide
    | going _ hq =>
      obtain ⟨-, hq | ⟨hq, -⟩ | ⟨hq, -⟩ | ⟨-, -, hq | hq⟩⟩ := hq <;> rw [hq] <;> decide
  · by_cases htell : (s.proc r.peer).pc = .tell
    · rw [htell]
      decide
    · rcases (h.phase.rests htell).2 with ⟨hwaits, -⟩ | ⟨-, hexited, -⟩
      · exact hwaits.ne.2.1
      · rw [hexited]
        decide

/-- In every run in which no signal is delivered between a test of `sigflag` that has found it zero
and the `sigsuspend` that follows, the processes take turns and none of them gets stuck. -/
theorem takesTurns_of_orderly (h : Run (step oldmask) Orderly .start es s) : s.TakesTurns :=
  have hinv : Inv s := h.invariant inv_start fun _ _ _ => inv_step
  ⟨hinv.log_eq, fun t => ⟨hinv.hasTurn.pc_ne_quit t, hinv.hasTurn.not_stuck t⟩⟩

end Runs

/-- The guard can be evaluated. -/
instance (s : State) (e : Event) : Decidable (Orderly s e) :=
  match e with
  | .run _ => isTrue trivial
  | .deliver r => inferInstanceAs (Decidable ((s.proc r).pc ≠ .suspend))

/-- A round of both processes: the parent updates, tells the child and sleeps, the child is woken,
updates and tells the parent, and the parent is woken and updates. -/
def round : List Event :=
  [.run .parent, .run .parent, .run .parent, .run .parent, .run .parent,
    .run .child, .run .child, .deliver .child, .run .child, .run .child, .run .child,
    .run .child, .run .child, .run .child, .deliver .parent, .run .parent, .run .parent,
    .run .parent, .run .parent, .run .parent]

/-- They take turns in it. -/
theorem takesTurns_of_orderly_round :
    ∃ s, Run (step fun _ => false) Orderly .start round s ∧
      s.log = [(.parent, 0), (.child, 1), (.parent, 2)] ∧ s.TakesTurns := by
  have hexec : ∃ s, exec (restrict (step fun _ => false) Orderly) .start round = some s ∧
      s.log = [(.parent, 0), (.child, 1), (.parent, 2)] := ⟨_, rfl, rfl⟩
  obtain ⟨s, hs, hlog⟩ := hexec
  exact ⟨s, Run.of_exec_restrict hs, hlog, takesTurns_of_orderly (Run.of_exec_restrict hs)⟩

/-! ## The lost signal -/

/-- A run in which the second signal to the child is delivered between its test of `sigflag` and its
`sigsuspend`: both processes sleep, and no signal is pending. -/
theorem exec_stuck : ∃ s, exec (step fun _ => false) .start
    [.run .parent, .run .parent, .run .parent, .run .parent, .run .parent,
      .run .child, .run .child, .deliver .child, .run .child, .run .child, .run .child,
      .run .child, .run .child, .run .child, .run .child,
      .deliver .parent, .run .parent, .run .parent, .run .parent,
      .run .parent, .run .parent, .run .parent,
      .deliver .child, .run .child, .run .parent, .run .parent] = some s ∧
    (s.proc .parent).pc = .sleep ∧ (s.proc .parent).pending = false ∧
    (s.proc .child).pc = .sleep ∧ (s.proc .child).pending = false :=
  ⟨_, rfl, rfl, rfl, rfl, rfl⟩

/-- Then the child is stuck. -/
theorem not_takesTurns : ¬∀ (oldmask : Process → Bool) (es : List Event) (s : State),
    Run (step oldmask) anyStep .start es s → s.TakesTurns := by
  intro h
  obtain ⟨s, hs, hparent, hparent', hchild, hchild'⟩ := exec_stuck
  have hturns := h _ _ s (Run.of_exec hs)
  refine (hturns.2 .child).2 ⟨hchild, hchild', Or.inr (Or.inr (Or.inr ?_))⟩
  refine ⟨Or.inr (Or.inr hparent), hparent', fun htest => ?_⟩
  exact absurd (hparent.symm.trans htest) (by decide)

end CxxPandora.Apue.Alternation
