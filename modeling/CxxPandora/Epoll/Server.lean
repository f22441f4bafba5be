import CxxPandora.Lib.Machine
import Mathlib.Data.Int.Notation
import Mathlib.Data.List.Basic
import Mathlib.Logic.Function.Basic

/-!
# The epoll echo server

The event loop of `linux/socket/epoll/server.cpp`, and the part of the kernel that it talks to: the
queue of connections to accept, the bytes that each connection has received, and the edges that
`epoll_wait` has not delivered yet. A label carries what the kernel chooses: which connections and
bytes arrive, which events `epoll_wait` reports, and what each system call returns.
-/

namespace CxxPandora.Epoll

open Lib

/-! ## The model -/

/-- `MAX_LINE`. -/
def maxLine : ℕ := 2048

/-- `CONNECT_SIZE`, the `maxevents` of `epoll_wait`. -/
def connectSize : ℕ := 256

/-- The length of `events`. -/
def eventsLength : ℕ := 20

/-- What a descriptor is registered for, besides `EPOLLET`. -/
inductive Interest
  | EPOLLIN
  | EPOLLOUT
  deriving DecidableEq, Repr

/-- A connection: what it is registered for, the bytes received and not read, whether the peer has
closed it, and whether an edge is to be delivered. -/
structure Conn where
  interest : Interest
  unread : List UInt8
  eof : Bool
  edge : Bool
  deriving DecidableEq, Repr

/-- Where the program is. -/
inductive Pc
  /-- In the loop over `events`, with the entries from `events[i]` on to handle. With none left,
  about to call `epoll_wait`. -/
  | loop (rest : List (ℕ × Interest))
  /-- `exit(1)`. -/
  | exited
  /-- An array was accessed out of its bounds. -/
  | undefined
  deriving DecidableEq, Repr

/-- The variables of the program, and the kernel's state. -/
structure State where
  buf : List UInt8
  n : ℤ
  pc : Pc
  backlog : ℕ
  listenEdge : Bool
  conns : ℕ → Option Conn

/-- Before the first `epoll_wait`: `buf` and `n` hold whatever they held. -/
def State.start (buf : List UInt8) (n : ℤ) : State := ⟨buf, n, .loop [], 0, false, fun _ => none⟩

/-- What happens next. -/
inductive Event
  /-- A connection is queued on the listening socket. -/
  | arrive
  /-- Connection `c` receives the bytes `bs`. -/
  | data (c : ℕ) (bs : List UInt8)
  /-- The peer closes connection `c`. -/
  | eof (c : ℕ)
  /-- Connection `c` becomes writable. -/
  | writable (c : ℕ)
  /-- `epoll_wait` reports `events`. -/
  | wait (events : List (ℕ × Interest))
  /-- `accept` returns `c`, which has received `bs` and may be closed by the peer. -/
  | accept (c : ℕ) (bs : List UInt8) (eof : Bool)
  /-- `accept` fails. -/
  | acceptFail
  /-- `read` on `c` reads the bytes `bs`, and `c` may be writable. -/
  | read (c : ℕ) (bs : List UInt8) (writable : Bool)
  /-- `read` on `c` returns `ret`, which is zero or less. -/
  | readFail (c : ℕ) (ret : ℤ)
  /-- `write` on `c` returns `ret`. -/
  | write (c : ℕ) (ret : ℤ)
  deriving DecidableEq, Repr

/-- Connection `c` becomes `conn`. -/
def State.setConn (s : State) (c : ℕ) (conn : Conn) : State :=
  { s with conns := Function.update s.conns c (some conn) }

/-- A connection is queued: an edge of the listening socket. -/
def State.arrive (s : State) : State := { s with backlog := s.backlog + 1, listenEdge := true }

/-- Bytes arrive: an edge, if the connection is registered for `EPOLLIN`. -/
def State.data (s : State) (c : ℕ) (bs : List UInt8) : Option State :=
  match s.conns c with
  | some conn =>
    if bs = [] then none
    else some (s.setConn c { conn with
      unread := conn.unread ++ bs, edge := conn.edge || conn.interest == .EPOLLIN })
  | none => none

/-- The peer closes: an edge, if the connection is registered for `EPOLLIN`. -/
def State.eof (s : State) (c : ℕ) : Option State :=
  match s.conns c with
  | some conn =>
    some (s.setConn c { conn with eof := true, edge := conn.edge || conn.interest == .EPOLLIN })
  | none => none

/-- There is room to write: an edge, if the connection is registered for `EPOLLOUT`. -/
def State.writable (s : State) (c : ℕ) : Option State :=
  match s.conns c with
  | some conn => some (s.setConn c { conn with edge := conn.edge || conn.interest == .EPOLLOUT })
  | none => none

/-- What connection `c` is registered for. -/
def State.interest (s : State) (c : ℕ) : Option Interest := (s.conns c).map Conn.interest

/-- What descriptor `fd` is registered for. -/
def State.registered (s : State) (listenfd fd : ℕ) : Option Interest :=
  if fd = listenfd then some .EPOLLIN else s.interest fd

/-- Deliver the edge of every connection that `events` reports. -/
def State.deliver (s : State) (events : List (ℕ × Interest)) (c : ℕ) : Option Conn :=
  if c ∈ events.map Prod.fst then (s.conns c).map fun conn => { conn with edge := false }
  else s.conns c

/-- `epoll_wait` stores one entry for each of some descriptors, with its registered interest: up to
`CONNECT_SIZE` of them, in an array of 20. -/
def State.wait (s : State) (listenfd : ℕ) (events : List (ℕ × Interest)) : Option State :=
  if (events.map Prod.fst).Nodup ∧ events.length ≤ connectSize ∧
      ∀ ev ∈ events, s.registered listenfd ev.1 = some ev.2 then
    -- The kernel writes behind the end of `events`.
    if eventsLength < events.length then some { s with pc := .undefined }
    else some { s with
      pc := .loop events
      listenEdge := s.listenEdge && !decide (listenfd ∈ events.map Prod.fst)
      conns := s.deliver events }
  else none

/-- `accept` returns a new descriptor, which `epoll_ctl` adds for `EPOLLIN`: an edge, if there is
something to read. -/
def State.accept (s : State) (listenfd : ℕ) (rest : List (ℕ × Interest)) (c : ℕ) (bs : List UInt8)
    (eof : Bool) : Option State :=
  if 0 < s.backlog ∧ c ≠ listenfd ∧ s.conns c = none then
    some { s.setConn c ⟨.EPOLLIN, bs, eof, bs != [] || eof⟩ with
      pc := .loop rest, backlog := s.backlog - 1 }
  else none

/-- `read` stores a part of the bytes received in the cleared `buf`, and `buf[n]` becomes zero.
`epoll_ctl` changes the interest to `EPOLLOUT`. -/
def State.read (s : State) (rest : List (ℕ × Interest)) (c : ℕ) (bs : List UInt8)
    (writable : Bool) :
    Option State :=
  match s.conns c with
  | some conn =>
    if bs ≠ [] ∧ bs.length ≤ maxLine ∧ bs <+: conn.unread then
      -- `buf[n]` is outside of `buf` when `read` fills it.
      if bs.length = maxLine then some { s with pc := .undefined }
      else some { s.setConn c ⟨.EPOLLOUT, conn.unread.drop bs.length, conn.eof, writable⟩ with
        buf := bs ++ List.replicate (maxLine - bs.length) 0, n := bs.length, pc := .loop rest }
    else none
  | none => none

/-- `read` fails, or is at the end: the connection is closed. -/
def State.readFail (s : State) (rest : List (ℕ × Interest)) (c : ℕ) (ret : ℤ) : Option State :=
  if ret = 0 ∨ ret = -1 then
    some { s with
      buf := List.replicate maxLine 0
      n := ret
      pc := .loop rest
      conns := Function.update s.conns c none }
  else none

/-- `write` is offered `n` bytes of `buf`. When it does not take them all, the loop over `events` is
left; else `epoll_ctl` changes the interest to `EPOLLIN`: an edge, if there is something to read. -/
def State.write (s : State) (rest : List (ℕ × Interest)) (c : ℕ) (ret : ℤ) : Option State :=
  match s.conns c with
  | some conn =>
    if -1 ≤ ret ∧ (0 ≤ s.n → ret ≤ s.n) then
      -- `break`: the entries that are left are dropped.
      if ret ≠ s.n then some { s with pc := .loop [] }
      else some { s.setConn c ⟨.EPOLLIN, conn.unread, conn.eof, conn.unread != [] || conn.eof⟩ with
        pc := .loop rest }
    else none
  | none => none

/-- One event. The kernel's may happen at any time, and the program's next system call is that of
its loop: `epoll_wait` when it has handled every entry, else that of the branch that handles
`events[i]`. The descriptors that `epoll_wait` reports are not negative. -/
def step (listenfd : ℕ) (s : State) (e : Event) : Option State :=
  match s.pc with
  | .exited | .undefined => none
  | .loop rest =>
    match e, rest with
    -- The kernel.
    | .arrive, _ => some s.arrive
    | .data c bs, _ => s.data c bs
    | .eof c, _ => s.eof c
    | .writable c, _ => s.writable c
    -- The program.
    | .wait events, [] => s.wait listenfd events
    | .accept c bs eof, (fd, _) :: rest =>
      if fd = listenfd then s.accept listenfd rest c bs eof else none
    | .acceptFail, (fd, _) :: _ => if fd = listenfd then some { s with pc := .exited } else none
    | .read c bs writable, (fd, .EPOLLIN) :: rest =>
      if fd ≠ listenfd ∧ fd = c then s.read rest c bs writable else none
    | .readFail c ret, (fd, .EPOLLIN) :: rest =>
      if fd ≠ listenfd ∧ fd = c then s.readFail rest c ret else none
    | .write c ret, (fd, .EPOLLOUT) :: rest =>
      if fd ≠ listenfd ∧ fd = c then s.write rest c ret else none
    | _, _ => none

/-! ## What a step does -/

/-- The outcomes of a step. -/
inductive Outcome (listenfd : ℕ) (s : State) : Event → State → Prop
  | arrive {rest} : s.pc = .loop rest → Outcome listenfd s .arrive s.arrive
  | data {rest c conn} (bs : List UInt8) : s.pc = .loop rest → s.conns c = some conn →
      Outcome listenfd s (.data c bs) (s.setConn c { conn with
        unread := conn.unread ++ bs, edge := conn.edge || conn.interest == .EPOLLIN })
  | eof {rest c conn} : s.pc = .loop rest → s.conns c = some conn →
      Outcome listenfd s (.eof c) (s.setConn c { conn with
        eof := true, edge := conn.edge || conn.interest == .EPOLLIN })
  | writable {rest c conn} : s.pc = .loop rest → s.conns c = some conn →
      Outcome listenfd s (.writable c) (s.setConn c { conn with
        edge := conn.edge || conn.interest == .EPOLLOUT })
  | wait {events} : s.pc = .loop [] → (events.map Prod.fst).Nodup →
      (∀ ev ∈ events, s.registered listenfd ev.1 = some ev.2) → events.length ≤ eventsLength →
      Outcome listenfd s (.wait events) { s with
        pc := .loop events
        listenEdge := s.listenEdge && !decide (listenfd ∈ events.map Prod.fst)
        conns := s.deliver events }
  | waitOverflow {events} : s.pc = .loop [] → eventsLength < events.length →
      Outcome listenfd s (.wait events) { s with pc := .undefined }
  | accept {i rest c} (bs : List UInt8) (eof : Bool) : s.pc = .loop ((listenfd, i) :: rest) →
      0 < s.backlog → c ≠ listenfd → s.conns c = none →
      Outcome listenfd s (.accept c bs eof) { s.setConn c ⟨.EPOLLIN, bs, eof, bs != [] || eof⟩ with
        pc := .loop rest, backlog := s.backlog - 1 }
  | acceptFail {i rest} : s.pc = .loop ((listenfd, i) :: rest) →
      Outcome listenfd s .acceptFail { s with pc := .exited }
  | read {c rest conn bs} (writable : Bool) : s.pc = .loop ((c, .EPOLLIN) :: rest) →
      c ≠ listenfd → s.conns c = some conn → bs <+: conn.unread → bs.length < maxLine →
      Outcome listenfd s (.read c bs writable)
        { s.setConn c ⟨.EPOLLOUT, conn.unread.drop bs.length, conn.eof, writable⟩ with
          buf := bs ++ List.replicate (maxLine - bs.length) 0, n := bs.length, pc := .loop rest }
  | readOverflow {c rest bs} (writable : Bool) : s.pc = .loop ((c, .EPOLLIN) :: rest) →
      bs.length = maxLine → Outcome listenfd s (.read c bs writable) { s with pc := .undefined }
  | readFail {c rest} (ret : ℤ) : s.pc = .loop ((c, .EPOLLIN) :: rest) → c ≠ listenfd →
      Outcome listenfd s (.readFail c ret) { s with
        buf := List.replicate maxLine 0
        n := ret
        pc := .loop rest
        conns := Function.update s.conns c none }
  | write {c rest conn} : s.pc = .loop ((c, .EPOLLOUT) :: rest) → c ≠ listenfd →
      s.conns c = some conn → Outcome listenfd s (.write c s.n)
        { s.setConn c ⟨.EPOLLIN, conn.unread, conn.eof, conn.unread != [] || conn.eof⟩ with
          pc := .loop rest }
  | writeShort {c rest ret} : s.pc = .loop ((c, .EPOLLOUT) :: rest) → c ≠ listenfd → ret ≠ s.n →
      Outcome listenfd s (.write c ret) { s with pc := .loop [] }

/-- A step has one of the outcomes. -/
theorem step_outcome {listenfd : ℕ} {s s' : State} {e : Event} (h : step listenfd s e = some s') :
    Outcome listenfd s e s' := by
  unfold step at h
  split at h
  · exact absurd h.symm (Option.some_ne_none s')
  · exact absurd h.symm (Option.some_ne_none s')
  · -- One case for each branch of the loop, in the order of `step`.
    rename_i rest hpc
    split at h
    · obtain rfl := Option.some.inj h
      exact .arrive hpc
    · unfold State.data at h
      split at h
      · rename_i conn hconn
        split_ifs at h
        obtain rfl := Option.some.inj h
        exact .data _ hpc hconn
      · exact absurd h.symm (Option.some_ne_none s')
    · unfold State.eof at h
      split at h
      · rename_i conn hconn
        obtain rfl := Option.some.inj h
        exact .eof hpc hconn
      · exact absurd h.symm (Option.some_ne_none s')
    · unfold State.writable at h
      split at h
      · rename_i conn hconn
        obtain rfl := Option.some.inj h
        exact .writable hpc hconn
      · exact absurd h.symm (Option.some_ne_none s')
    · unfold State.wait at h
      split_ifs at h with hev hlen
      · obtain rfl := Option.some.inj h
        exact .waitOverflow hpc hlen
      · obtain rfl := Option.some.inj h
        exact .wait hpc hev.1 hev.2.2 (Nat.le_of_not_lt hlen)
    · split_ifs at h with hfd
      subst hfd
      unfold State.accept at h
      split_ifs at h with hc
      obtain rfl := Option.some.inj h
      exact .accept _ _ hpc hc.1 hc.2.1 hc.2.2
    · split_ifs at h with hfd
      subst hfd
      obtain rfl := Option.some.inj h
      exact .acceptFail hpc
    · split_ifs at h with hfd
      obtain ⟨hlisten, rfl⟩ := hfd
      unfold State.read at h
      split at h
      · rename_i conn hconn
        split_ifs at h with hbs hlen
        · obtain rfl := Option.some.inj h
          exact .readOverflow _ hpc hlen
        · obtain rfl := Option.some.inj h
          exact .read _ hpc hlisten hconn hbs.2.2 (Nat.lt_of_le_of_ne hbs.2.1 hlen)
      · exact absurd h.symm (Option.some_ne_none s')
    · split_ifs at h with hfd
      obtain ⟨hlisten, rfl⟩ := hfd
      unfold State.readFail at h
      split_ifs at h
      obtain rfl := Option.some.inj h
      exact .readFail _ hpc hlisten
    · split_ifs at h with hfd
      obtain ⟨hlisten, rfl⟩ := hfd
      unfold State.write at h
      split at h
      · rename_i conn hconn
        split_ifs at h with hret hn
        · obtain rfl := Option.some.inj h
          exact .writeShort hpc hlisten hn
        · obtain rfl := Option.some.inj h
          have hret : _ = s.n := not_not.mp hn
          rw [hret]
          exact .write hpc hlisten hconn
      · exact absurd h.symm (Option.some_ne_none s')
    · exact absurd h.symm (Option.some_ne_none s')

/-! ## The batch of events -/

/-- The connection that changes. -/
@[simp] theorem State.conns_setConn_self (s : State) (c : ℕ) (conn : Conn) :
    (s.setConn c conn).conns c = some conn := Function.update_self ..

/-- The connections that do not change. -/
theorem State.conns_setConn_of_ne (s : State) {c d : ℕ} (conn : Conn) (h : d ≠ c) :
    (s.setConn c conn).conns d = s.conns d := Function.update_of_ne h _ _

/-- The interests after one connection changes. -/
theorem State.interest_setConn (s : State) (c : ℕ) (conn : Conn) (d : ℕ) :
    (s.setConn c conn).interest d = if d = c then some conn.interest else s.interest d := by
  unfold State.interest State.setConn
  dsimp only
  rw [Function.update_apply]
  split_ifs <;> rfl

/-- A connection that changes and keeps its own interest keeps every interest. -/
theorem State.interest_setConn_self {s : State} {c : ℕ} {conn conn' : Conn}
    (hconn : s.conns c = some conn) (h : conn'.interest = conn.interest) (d : ℕ) :
    (s.setConn c conn').interest d = s.interest d := by
  rw [State.interest_setConn]
  split_ifs with hd
  · rw [hd, State.interest, hconn, h]
    rfl
  · rfl

/-- The delivery of edges keeps every interest. -/
theorem State.interest_deliver (s : State) (events : List (ℕ × Interest)) (c : ℕ) :
    (s.deliver events c).map Conn.interest = s.interest c := by
  unfold State.deliver State.interest
  split_ifs
  · rw [Option.map_map]
    rfl
  · rfl

/-- Equal interests are equal registrations. -/
theorem State.registered_congr {s s' : State} {listenfd fd : ℕ}
    (h : fd ≠ listenfd → s'.interest fd = s.interest fd) :
    s'.registered listenfd fd = s.registered listenfd fd := by
  unfold State.registered
  split_ifs with hfd
  · rfl
  · exact h hfd

/-- The invariant of the loop over `events`. The listening socket is no connection; the entries that
are left are for different descriptors, and each has the interest that its descriptor is registered
for. -/
structure Inv (listenfd : ℕ) (s : State) : Prop where
  listen : s.conns listenfd = none
  nodup : ∀ rest, s.pc = .loop rest → (rest.map Prod.fst).Nodup
  registered : ∀ rest, s.pc = .loop rest → ∀ ev ∈ rest, s.registered listenfd ev.1 = some ev.2

/-- The invariant holds at the start. -/
theorem Inv.start (listenfd : ℕ) (buf : List UInt8) (n : ℤ) : Inv listenfd (.start buf n) := by
  refine ⟨rfl, fun rest h => ?_, fun rest h => ?_⟩
  · obtain rfl := Pc.loop.inj h
    exact List.nodup_nil
  · obtain rfl := Pc.loop.inj h
    exact fun ev hev => absurd hev List.not_mem_nil

/-- A step that leaves the loop keeps the invariant. -/
theorem Inv.leave {listenfd : ℕ} {s : State} (h : Inv listenfd s) {pc : Pc}
    (hpc : ∀ rest, pc ≠ .loop rest) : Inv listenfd { s with pc := pc } :=
  ⟨h.listen, fun rest hrest => absurd hrest (hpc rest), fun rest hrest => absurd hrest (hpc rest)⟩

/-- A step keeps the invariant if the entries left after it were left before it, and their
descriptors are registered as before. -/
theorem Inv.next {listenfd : ℕ} {s s' : State} {rest rest' : List (ℕ × Interest)}
    (h : Inv listenfd s) (hpc : s.pc = .loop rest) (hpc' : s'.pc = .loop rest')
    (hsub : rest' <:+ rest) (hlisten : s'.conns listenfd = none)
    (hreg : ∀ ev ∈ rest', ev.1 ≠ listenfd → s'.interest ev.1 = s.interest ev.1) :
    Inv listenfd s' := by
  refine ⟨hlisten, fun r hr => ?_, fun r hr ev hev => ?_⟩
  · obtain rfl := Pc.loop.inj (hpc'.symm.trans hr)
    exact (h.nodup rest hpc).sublist (hsub.sublist.map Prod.fst)
  · obtain rfl := Pc.loop.inj (hpc'.symm.trans hr)
    rw [State.registered_congr (hreg ev hev)]
    exact h.registered rest hpc ev (hsub.subset hev)

/-- The entry that is handled is for no descriptor of the entries that are left. -/
theorem Inv.ne_of_mem {listenfd : ℕ} {s : State} (h : Inv listenfd s) {c : ℕ} {i : Interest}
    {rest : List (ℕ × Interest)} (hpc : s.pc = .loop ((c, i) :: rest)) {ev : ℕ × Interest}
    (hev : ev ∈ rest) : ev.1 ≠ c := by
  have hmem : ev.1 ∈ rest.map Prod.fst := List.mem_map_of_mem hev
  have hnodup := h.nodup _ hpc
  rw [List.map_cons, List.nodup_cons] at hnodup
  intro hc
  rw [hc] at hmem
  exact hnodup.1 hmem

/-- A connection in the entries that are left has their interest. -/
theorem Inv.interest {listenfd : ℕ} {s : State} (h : Inv listenfd s)
    {rest : List (ℕ × Interest)} (hpc : s.pc = .loop rest) {c : ℕ} {i : Interest}
    (hc : c ≠ listenfd) (hev : (c, i) ∈ rest) : s.interest c = some i := by
  have hreg := h.registered rest hpc (c, i) hev
  rwa [State.registered, if_neg hc] at hreg

/-- Every step keeps the invariant. -/
theorem Inv.step {listenfd : ℕ} {s s' : State} {e : Event} (h : Inv listenfd s)
    (hs : step listenfd s e = some s') : Inv listenfd s' := by
  -- A connection that changes is not the listening socket.
  have hself : ∀ {c conn} (conn' : Conn), s.conns c = some conn →
      (s.setConn c conn').conns listenfd = none := by
    intro c conn conn' hconn
    have hc : listenfd ≠ c := by
      rintro rfl
      rw [h.listen] at hconn
      exact absurd hconn.symm (Option.some_ne_none conn)
    exact (State.conns_setConn_of_ne s conn' hc).trans h.listen
  cases step_outcome hs with
  | arrive hpc => exact h.next hpc hpc List.suffix_rfl h.listen fun _ _ _ => rfl
  | data bs hpc hconn | eof hpc hconn | writable hpc hconn =>
    exact h.next hpc hpc List.suffix_rfl (hself _ hconn) fun _ _ _ =>
      State.interest_setConn_self hconn (by rfl) _
  | wait hpc hnodup hreg hlen =>
    -- The entries are what `epoll_wait` promises, and the delivery changes no interest.
    refine ⟨?_, fun rest hrest => ?_, fun rest hrest ev hev => ?_⟩
    · show s.deliver _ listenfd = none
      unfold State.deliver
      split_ifs
      · rw [h.listen]
        rfl
      · exact h.listen
    · obtain rfl := Pc.loop.inj hrest
      exact hnodup
    · obtain rfl := Pc.loop.inj hrest
      rw [← hreg ev hev]
      exact State.registered_congr fun _ => State.interest_deliver s _ _
  | waitOverflow | readOverflow | acceptFail => exact h.leave fun _ => nofun
  | accept bs eof hpc hbacklog hc hnone =>
    refine h.next hpc rfl (List.suffix_cons ..) ?_ fun ev hev hne => ?_
    · exact (State.conns_setConn_of_ne s _ hc.symm).trans h.listen
    · -- The new descriptor is registered for nothing, and so is in no entry.
      refine (State.interest_setConn s _ _ _).trans (if_neg ?_)
      rintro rfl
      have hreg := h.interest hpc hne (List.mem_cons_of_mem _ hev)
      rw [State.interest, hnone] at hreg
      exact absurd hreg.symm (Option.some_ne_none _)
  | read writable hpc hc hconn | write hpc hc hconn =>
    -- The interest that changes is that of the entry that has been handled.
    refine h.next hpc rfl (List.suffix_cons ..) (hself _ hconn) fun ev hev _ => ?_
    exact (State.interest_setConn s _ _ _).trans (if_neg (h.ne_of_mem hpc hev))
  | readFail ret hpc hc =>
    refine h.next hpc rfl (List.suffix_cons ..) ?_ fun ev hev _ => ?_
    · exact (Function.update_of_ne hc.symm _ _).trans h.listen
    · exact congrArg (Option.map Conn.interest) (Function.update_of_ne (h.ne_of_mem hpc hev) _ _)
  | writeShort hpc =>
    -- No entry is left.
    exact h.next hpc rfl List.nil_suffix h.listen fun _ hev => absurd hev List.not_mem_nil

/-- The invariant holds after every run. -/
theorem inv_of_run {listenfd : ℕ} {buf : List UInt8} {n : ℤ} {G : State → Event → Prop}
    {es : List Event} {s : State} (h : Run (step listenfd) G (.start buf n) es s) :
    Inv listenfd s :=
  h.invariant (Inv.start listenfd buf n) fun _ _ _ hs _ hstep => hs.step hstep

end CxxPandora.Epoll
