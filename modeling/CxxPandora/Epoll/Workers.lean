import CxxPandora.Lib.Machine
import Mathlib.Algebra.Order.BigOperators.Group.Finset

/-!
# Worker threads that share a listening socket

`linux/socket/epoll/muti_thread_epoll.cpp`: threads that run `worker_thread`, each with an epoll
instance of its own. All register the listening socket, which is blocking, so that one connection
may be reported to several of them, and each then calls `accept`. A label carries what the kernel
chooses, and the thread whose turn it is. `pending_of_run` says when no thread blocks in `accept`:
when `epoll_wait` gives the listening socket to a thread only while more connections are pending
than the threads already hold it for.
-/

namespace CxxPandora.Epoll.Workers

open Lib

/-! ## The model -/

/-- `MAX_EVENTS`. -/
def maxEvents : ℕ := 10

/-- The size of `buf`. -/
def bufSize : ℕ := 1024

/-- Where a worker is. -/
inductive Pc
  /-- About to create its epoll instance and register the listening socket. -/
  | start
  /-- In the loop over `events`, with the descriptors from `events[i]` on to handle. With none left,
  about to call `epoll_wait`. -/
  | loop (rest : List ℕ)
  /-- `accept` has returned `connfd`, which is about to be registered. -/
  | register (connfd : ℕ) (rest : List ℕ)
  /-- About to write back the bytes `bs`, read from `fd`. -/
  | write (fd : ℕ) (bs : List UInt8) (rest : List ℕ)
  deriving DecidableEq, Repr

/-- A worker, and whether its epoll instance has an edge of the listening socket to deliver. -/
structure Worker where
  pc : Pc
  edge : Bool
  deriving DecidableEq, Repr

/-- A connection: the worker that accepted it, whether it is registered, the bytes received and not
read, whether the peer has closed it, and whether an edge is to be delivered. -/
structure Conn (n : ℕ) where
  owner : Fin n
  registered : Bool
  unread : List UInt8
  eof : Bool
  edge : Bool
  deriving DecidableEq, Repr

/-- The process, with `n` workers, and the kernel's state. -/
structure State (n : ℕ) where
  workers : Fin n → Worker
  backlog : ℕ
  conns : ℕ → Option (Conn n)
  exited : Bool

/-- The workers have been created. -/
def State.start (n : ℕ) : State n := ⟨fun _ => ⟨.start, false⟩, 0, fun _ => none, false⟩

/-- What happens next. -/
inductive Event (n : ℕ)
  /-- Worker `w` creates its epoll instance, and registers the listening socket. -/
  | add (w : Fin n)
  /-- It cannot. -/
  | addFail (w : Fin n)
  /-- A connection is queued on the listening socket, and reported to the instances of `ws`. -/
  | arrive (ws : Finset (Fin n))
  /-- Connection `c` receives the bytes `bs`. -/
  | data (c : ℕ) (bs : List UInt8)
  /-- The peer closes connection `c`. -/
  | eof (c : ℕ)
  /-- The `epoll_wait` of worker `w` reports `events`. -/
  | wait (w : Fin n) (events : List ℕ)
  /-- It fails. -/
  | waitFail (w : Fin n)
  /-- The `accept` of worker `w` returns `c`, which has received `bs` and may be closed by the
  peer. -/
  | accept (w : Fin n) (c : ℕ) (bs : List UInt8) (eof : Bool)
  /-- It fails. -/
  | acceptFail (w : Fin n)
  /-- Worker `w` registers the connection that it has accepted. -/
  | addConn (w : Fin n)
  /-- It cannot, and closes the connection. -/
  | addConnFail (w : Fin n)
  /-- The `read` of worker `w` reads the bytes `bs`. -/
  | read (w : Fin n) (bs : List UInt8)
  /-- It is at the end or fails, and the connection is closed. -/
  | readEnd (w : Fin n)
  /-- The `write` of worker `w` returns. -/
  | write (w : Fin n)

variable {n : ℕ}

/-- Worker `w` goes on at `pc`. -/
def State.goto (s : State n) (w : Fin n) (pc : Pc) : State n :=
  { s with workers := Function.update s.workers w { s.workers w with pc := pc } }

/-- Connection `c` becomes `conn`. -/
def State.setConn (s : State n) (c : ℕ) (conn : Option (Conn n)) : State n :=
  { s with conns := Function.update s.conns c conn }

/-- The instance of worker `w` has descriptor `fd` to report: there is an edge, and something to
accept or to read. -/
def State.reports (s : State n) (listenfd : ℕ) (w : Fin n) (fd : ℕ) : Bool :=
  if fd = listenfd then (s.workers w).edge && decide (0 < s.backlog)
  else
    match s.conns fd with
    | some conn => decide (conn.owner = w) && conn.registered && conn.edge
    | none => false

/-- The edges that are left after the instance of worker `w` has reported `events`. -/
def State.deliver (s : State n) (listenfd : ℕ) (w : Fin n) (events : List ℕ) : State n :=
  { s with
    workers := Function.update s.workers w
      ⟨.loop events, (s.workers w).edge && decide (listenfd ∉ events) && decide (0 < s.backlog)⟩
    conns c := if c ∈ events then (s.conns c).map fun conn => { conn with edge := false }
      else s.conns c }

/-- `epoll_wait` reports up to `MAX_EVENTS` of the descriptors that the instance has to report. -/
def State.wait (s : State n) (listenfd : ℕ) (w : Fin n) (events : List ℕ) : Option (State n) :=
  match (s.workers w).pc with
  | .loop [] =>
    if events ≠ [] ∧ events.Nodup ∧ events.length ≤ maxEvents ∧
        ∀ fd ∈ events, s.reports listenfd w fd = true then
      some (s.deliver listenfd w events)
    else none
  | _ => none

/-- `accept` takes a connection off the queue, and blocks when there is none. -/
def State.accept (s : State n) (listenfd : ℕ) (w : Fin n) (c : ℕ) (bs : List UInt8) (eof : Bool) :
    Option (State n) :=
  match (s.workers w).pc with
  | .loop (fd :: rest) =>
    if fd = listenfd ∧ 0 < s.backlog ∧ c ≠ listenfd ∧ s.conns c = none then
      some { (s.setConn c (some ⟨w, false, bs, eof, false⟩)).goto w (.register c rest) with
        backlog := s.backlog - 1 }
    else none
  | _ => none

/-- One event. A worker's is that of the system call that it is about to make. -/
def step (listenfd : ℕ) (s : State n) (e : Event n) : Option (State n) :=
  if s.exited then none
  else
    match e with
    -- The kernel.
    | .arrive ws =>
      if ∀ w ∈ ws, (s.workers w).pc ≠ .start then
        some { s with
          workers w := { s.workers w with edge := (s.workers w).edge || decide (w ∈ ws) }
          backlog := s.backlog + 1 }
      else none
    | .data c bs =>
      (s.conns c).bind fun conn =>
        if bs = [] then none
        else some (s.setConn c (some { conn with unread := conn.unread ++ bs, edge := true }))
    | .eof c =>
      (s.conns c).bind fun conn => some (s.setConn c (some { conn with eof := true, edge := true }))
    -- The workers.
    | .add w =>
      if (s.workers w).pc = .start then
        some { s with workers := Function.update s.workers w ⟨.loop [], decide (0 < s.backlog)⟩ }
      else none
    | .addFail w => if (s.workers w).pc = .start then some { s with exited := true } else none
    | .wait w events => s.wait listenfd w events
    | .waitFail w => if (s.workers w).pc = .loop [] then some { s with exited := true } else none
    | .accept w c bs eof => s.accept listenfd w c bs eof
    | .acceptFail w =>
      match (s.workers w).pc with
      | .loop (fd :: rest) => if fd = listenfd then some (s.goto w (.loop rest)) else none
      | _ => none
    | .addConn w =>
      match (s.workers w).pc with
      | .register c rest =>
        (s.conns c).bind fun conn =>
          some ((s.setConn c (some { conn with
            registered := true, edge := conn.unread != [] || conn.eof })).goto w (.loop rest))
      | _ => none
    | .addConnFail w =>
      match (s.workers w).pc with
      | .register c rest => some ((s.setConn c none).goto w (.loop rest))
      | _ => none
    | .read w bs =>
      match (s.workers w).pc with
      | .loop (fd :: rest) =>
        (s.conns fd).bind fun conn =>
          if fd ≠ listenfd ∧ bs ≠ [] ∧ bs.length ≤ bufSize ∧ bs <+: conn.unread then
            some ((s.setConn fd (some { conn with unread := conn.unread.drop bs.length })).goto w
              (.write fd bs rest))
          else none
      | _ => none
    | .readEnd w =>
      match (s.workers w).pc with
      | .loop (fd :: rest) =>
        if fd ≠ listenfd then some ((s.setConn fd none).goto w (.loop rest)) else none
      | _ => none
    -- The result of `write` is not looked at.
    | .write w =>
      match (s.workers w).pc with
      | .write _ _ rest => some (s.goto w (.loop rest))
      | _ => none

/-! ## The workers that hold the listening socket -/

/-- How many entries for the listening socket a worker holds: it will call `accept` for each. -/
def Pc.held (listenfd : ℕ) : Pc → ℕ
  | .start => 0
  | .loop rest => rest.count listenfd
  | .register _ rest => rest.count listenfd
  | .write _ _ rest => rest.count listenfd

/-- How many entries worker `w` holds. -/
def State.held (s : State n) (listenfd : ℕ) (w : Fin n) : ℕ := (s.workers w).pc.held listenfd

/-- How many entries the workers hold together. -/
def State.handed (s : State n) (listenfd : ℕ) : ℕ := ∑ w, s.held listenfd w

/-- When one worker goes on, the entries together change as its own do. -/
theorem handed_update (listenfd : ℕ) (s s' : State n) {w : Fin n} {worker : Worker}
    (h : s'.workers = Function.update s.workers w worker) :
    s'.handed listenfd + s.held listenfd w = s.handed listenfd + worker.pc.held listenfd := by
  have hself : s'.held listenfd w = worker.pc.held listenfd := by
    unfold State.held
    rw [h, Function.update_self]
  have hrest : ∑ v ∈ Finset.univ.erase w, s'.held listenfd v =
      ∑ v ∈ Finset.univ.erase w, s.held listenfd v := by
    refine Finset.sum_congr rfl fun v hv => ?_
    unfold State.held
    rw [h, Function.update_of_ne (Finset.ne_of_mem_erase hv)]
  have hs := Finset.add_sum_erase Finset.univ (s.held listenfd) (Finset.mem_univ w)
  have hs' := Finset.add_sum_erase Finset.univ (s'.held listenfd) (Finset.mem_univ w)
  unfold State.handed
  omega

/-- A worker goes on with no more entries than it held, and takes no connection. -/
theorem handed_goto_le {listenfd : ℕ} {s t : State n} {w : Fin n} {pc pc' : Pc}
    (hworkers : t.workers = s.workers) (hbacklog : t.backlog = s.backlog)
    (hpc : (s.workers w).pc = pc) (hle : pc'.held listenfd ≤ pc.held listenfd) :
    (t.goto w pc').handed listenfd + s.backlog ≤ s.handed listenfd + (t.goto w pc').backlog := by
  have hgoto : (t.goto w pc').workers =
      Function.update s.workers w { s.workers w with pc := pc' } := by
    unfold State.goto
    dsimp only
    rw [hworkers]
  have hsum := handed_update listenfd s (t.goto w pc') hgoto
  have hheld : s.held listenfd w = pc.held listenfd := by rw [State.held, hpc]
  have hsame : (t.goto w pc').backlog = s.backlog := hbacklog
  dsimp only at hsum
  omega

/-- The entries that are left, after one. -/
theorem held_rest_le (listenfd fd : ℕ) (rest : List ℕ) :
    (Pc.loop rest).held listenfd ≤ (Pc.loop (fd :: rest)).held listenfd :=
  List.count_le_count_cons

/-- `epoll_wait` adds the entries that it reports. -/
theorem wait_handed {listenfd : ℕ} {s s' : State n} {w : Fin n} {events : List ℕ}
    (h : s.wait listenfd w events = some s') :
    s'.backlog = s.backlog ∧
      s'.handed listenfd ≤ s.handed listenfd + events.count listenfd := by
  unfold State.wait at h
  split at h
  · split_ifs at h
    obtain rfl := Option.some.inj h
    have hsum := handed_update listenfd s (s.deliver listenfd w events) rfl
    exact ⟨rfl, Nat.le_of_add_right_le (Nat.le_of_eq hsum)⟩
  · exact absurd h (Option.some_ne_none s').symm

/-- `accept` takes a connection, and the worker has an entry less. -/
theorem accept_handed {listenfd : ℕ} {s s' : State n} {w : Fin n} {c : ℕ} {bs : List UInt8}
    {eof : Bool} (h : s.accept listenfd w c bs eof = some s') :
    s'.handed listenfd + s.backlog ≤ s.handed listenfd + s'.backlog := by
  unfold State.accept at h
  split at h
  · rename_i fd rest hpc
    split_ifs at h with hc
    obtain ⟨rfl, hpos, -, -⟩ := hc
    obtain rfl := Option.some.inj h
    have hheld : s.held fd w = rest.count fd + 1 := by
      rw [State.held, hpc]
      exact List.count_cons_self
    have hsum := handed_update fd s
      ((s.setConn c (some ⟨w, false, bs, eof, false⟩)).goto w (.register c rest)) rfl
    have hregister : (Pc.register c rest).held fd = rest.count fd := rfl
    show State.handed (State.goto _ w _) fd + s.backlog ≤ s.handed fd + (s.backlog - 1)
    dsimp only at hsum
    omega
  · exact absurd h (Option.some_ne_none s').symm

/-- What a step does to the entries that the workers hold and to the connections that are pending:
`epoll_wait` adds the entries that it reports, and every other step takes no more connections than
entries. -/
theorem step_handed {listenfd : ℕ} {s s' : State n} {e : Event n}
    (h : step listenfd s e = some s') :
    (∃ w events, e = .wait w events ∧ s'.backlog = s.backlog ∧
      s'.handed listenfd ≤ s.handed listenfd + events.count listenfd) ∨
    s'.handed listenfd + s.backlog ≤ s.handed listenfd + s'.backlog := by
  unfold step at h
  split_ifs at h
  cases e with
  | arrive ws =>
    dsimp only at h
    split_ifs at h
    rw [← Option.some.inj h]
    exact Or.inr (Nat.add_le_add_left (Nat.le_succ _) _)
  | data c bs =>
    obtain ⟨conn, -, hbs⟩ := Option.bind_eq_some_iff.mp h
    split_ifs at hbs
    rw [← Option.some.inj hbs]
    exact Or.inr (Nat.le_refl _)
  | eof c =>
    obtain ⟨conn, -, heof⟩ := Option.bind_eq_some_iff.mp h
    rw [← Option.some.inj heof]
    exact Or.inr (Nat.le_refl _)
  | addFail w =>
    dsimp only at h
    split_ifs at h
    rw [← Option.some.inj h]
    exact Or.inr (Nat.le_refl _)
  | waitFail w =>
    dsimp only at h
    split_ifs at h
    rw [← Option.some.inj h]
    exact Or.inr (Nat.le_refl _)
  | add w =>
    dsimp only at h
    split_ifs at h
    obtain rfl := Option.some.inj h
    have hsum := handed_update listenfd s
      { s with workers := Function.update s.workers w ⟨.loop [], decide (0 < s.backlog)⟩ } rfl
    exact Or.inr (Nat.add_le_add_right (Nat.le_of_add_right_le (Nat.le_of_eq hsum)) _)
  | wait w events => exact Or.inl ⟨w, events, rfl, wait_handed h⟩
  | accept w c bs eof => exact Or.inr (accept_handed h)
  | acceptFail w =>
    dsimp only at h
    split at h
    · rename_i fd rest hpc
      split_ifs at h
      obtain rfl := Option.some.inj h
      exact Or.inr (handed_goto_le rfl rfl hpc (held_rest_le listenfd fd rest))
    · exact absurd h (Option.some_ne_none s').symm
  | addConn w =>
    dsimp only at h
    split at h
    · rename_i c rest hpc
      obtain ⟨conn, -, hconn⟩ := Option.bind_eq_some_iff.mp h
      obtain rfl := Option.some.inj hconn
      exact Or.inr (handed_goto_le rfl rfl hpc (Nat.le_refl _))
    · exact absurd h (Option.some_ne_none s').symm
  | addConnFail w =>
    dsimp only at h
    split at h
    · rename_i c rest hpc
      obtain rfl := Option.some.inj h
      exact Or.inr (handed_goto_le rfl rfl hpc (Nat.le_refl _))
    · exact absurd h (Option.some_ne_none s').symm
  | read w bs =>
    dsimp only at h
    split at h
    · rename_i fd rest hpc
      obtain ⟨conn, -, hconn⟩ := Option.bind_eq_some_iff.mp h
      split_ifs at hconn
      obtain rfl := Option.some.inj hconn
      exact Or.inr (handed_goto_le rfl rfl hpc (held_rest_le listenfd fd rest))
    · exact absurd h (Option.some_ne_none s').symm
  | readEnd w =>
    dsimp only at h
    split at h
    · rename_i fd rest hpc
      split_ifs at h
      obtain rfl := Option.some.inj h
      exact Or.inr (handed_goto_le rfl rfl hpc (held_rest_le listenfd fd rest))
    · exact absurd h (Option.some_ne_none s').symm
  | write w =>
    dsimp only at h
    split at h
    · rename_i fd bs rest hpc
      obtain rfl := Option.some.inj h
      exact Or.inr (handed_goto_le rfl rfl hpc (Nat.le_refl _))
    · exact absurd h (Option.some_ne_none s').symm

/-! ## The runs in which no worker blocks -/

/-- Every worker that is about to call `accept` finds a connection pending. -/
def State.Pending (s : State n) (listenfd : ℕ) : Prop :=
  ∀ w rest, (s.workers w).pc = .loop (listenfd :: rest) → 0 < s.backlog

/-- `epoll_wait` gives the listening socket to a worker only while more connections are pending than
the workers already hold it for. -/
def Spaced (listenfd : ℕ) (s : State n) : Event n → Prop
  | .wait _ events => s.handed listenfd + events.count listenfd ≤ s.backlog
  | _ => True

/-- A spaced step leaves no more entries than there are connections pending. -/
theorem handed_le_of_step {listenfd : ℕ} {s s' : State n} {e : Event n}
    (h : s.handed listenfd ≤ s.backlog) (hspaced : Spaced listenfd s e)
    (hstep : step listenfd s e = some s') : s'.handed listenfd ≤ s'.backlog := by
  rcases step_handed hstep with ⟨w, events, rfl, hbacklog, hle⟩ | hle
  · rw [hbacklog]
    exact Nat.le_trans hle hspaced
  · omega

/-- At the start no worker holds an entry. -/
theorem handed_start (n listenfd : ℕ) : (State.start n).handed listenfd = 0 :=
  Finset.sum_eq_zero fun _ _ => rfl

/-- In every run whose waits are spaced, every worker that is about to call `accept` finds a
connection pending. -/
theorem pending_of_run {listenfd : ℕ} {es : List (Event n)} {s : State n}
    (h : Run (step listenfd) (Spaced listenfd) (State.start n) es s) : s.Pending listenfd := by
  have hle : s.handed listenfd ≤ s.backlog :=
    h.invariant (I := fun s => s.handed listenfd ≤ s.backlog)
      (Nat.le_of_eq (handed_start n listenfd))
      fun _ _ _ hs hG hstep => handed_le_of_step hs hG hstep
  intro w rest hpc
  have hheld : 0 < s.held listenfd w := by
    unfold State.held
    rw [hpc]
    exact List.count_pos_iff.mpr List.mem_cons_self
  have hsum : s.held listenfd w ≤ s.handed listenfd :=
    Finset.single_le_sum (fun _ _ => Nat.zero_le _) (Finset.mem_univ w)
  omega

/-- Whether a wait is spaced can be computed. -/
instance (listenfd : ℕ) (s : State n) (e : Event n) : Decidable (Spaced listenfd s e) :=
  match e with
  | .wait _ _ => inferInstanceAs (Decidable (_ ≤ _))
  | .add _ | .addFail _ | .arrive _ | .data _ _ | .eof _ | .waitFail _ | .accept _ _ _ _
  | .acceptFail _ | .addConn _ | .addConnFail _ | .read _ _ | .readEnd _ | .write _ =>
    inferInstanceAs (Decidable True)

/-- One of two workers is given the one connection that is reported to both. -/
theorem pending_of_run_two : ∃ s : State 2, (s.workers 0).pc = .loop [3] ∧ s.Pending 3 := by
  have h : Run (step 3) (Spaced 3) (State.start 2)
      [.add 0, .add 1, .arrive {0, 1}, .wait 0 [3]] _ := Run.of_exec_restrict rfl
  exact ⟨_, rfl, pending_of_run h⟩

/-- When both are given it, the second to call `accept` finds no connection pending. -/
theorem accept_blocks : ¬∀ (es : List (Event 2)) (s : State 2),
    Run (step 3) anyStep (State.start 2) es s → s.Pending 3 := by
  intro h
  have hrun : Run (step 3) anyStep (State.start 2)
      [.add 0, .add 1, .arrive {0, 1}, .wait 0 [3], .wait 1 [3], .accept 0 4 [104] false] _ :=
    Run.of_exec rfl
  exact absurd (h _ _ hrun 1 [] rfl) (by decide)

end CxxPandora.Epoll.Workers
