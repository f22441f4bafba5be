import CxxPandora.Poll.Server
import CxxPandora.Sendfile
import Mathlib.Data.List.DropRight

/-!
# The line client and the poll echo server

`str_cli` of `linux/socket/poll/client.cpp`, connected to the server of `Poll/Server.lean`: a
session of one client, with the bytes that are on the way in the two directions. `poll` reports what
is the case, every `read` takes some of the bytes that are on the way, and no call fails. How TCP
splits the stream to the server is how many bytes each of the server's reads takes; the client reads
one byte at a time.

The client waits for the echo of each line before it sends the next. It stalls on a line that
`readline` cannot tell is over: one that was sent up to a NUL, or the last one, if it has no newline
and fewer bytes than `readline` may read (`echoes_input_iff`).
-/

namespace CxxPandora.Poll

open Lib
open Sendfile (fgetsLine fgetsLine_ne_nil fgetsLine_spec notMem_dropLast_fgetsLine
  drop_fgetsLine_eq_nil)

/-! ## The model -/

/-- Where the client is. -/
inductive ClientPc
  /-- About to call `fgets`. -/
  | fgets
  /-- About to write `sendline`. -/
  | write
  /-- In the loop of `readline`, about to read one byte. -/
  | readline
  /-- About to call `fputs`. -/
  | fputs
  /-- `str_cli` has returned. -/
  | exited
  deriving DecidableEq, Repr

/-- The server, the connection and the client. The server's descriptor of the connection is `conn`,
once it is accepted; `up` and `down` are the bytes on the way to the server and to the client. In
`sendline` and `recvline` are the bytes that `fgets` and `readline` have stored, without the NUL
after them. -/
structure Session where
  srv : State
  conn : Option ℕ
  up : List UInt8
  down : List UInt8
  stdin : List UInt8
  sendline : List UInt8
  recvline : List UInt8
  stdout : List UInt8
  pc : ClientPc

/-- The client has connected, and the server is before its first `poll`. -/
def Session.start (listenfd : ℕ) (mem : ℕ → Pollfd) (nready : ℤ) (stdin : List UInt8) :
    Session where
  srv := .start listenfd mem nready
  conn := none
  up := []
  down := []
  stdin := stdin
  sendline := []
  recvline := []
  stdout := []
  pc := .fgets

/-- What happens next. -/
inductive Action
  /-- The server's `poll` returns. -/
  | poll
  /-- The server's `accept` returns `connfd`. -/
  | accept (connfd : ℕ)
  /-- The server's `read` takes `n` bytes. -/
  | read (n : ℕ)
  /-- The server's `write` sends what it has read. -/
  | write
  /-- The client's `fgets` returns. -/
  | fgets
  /-- The client's `write` sends `strlen(sendline)` bytes. -/
  | send
  /-- The client reads one byte. -/
  | recv
  /-- The client's `fputs` returns. -/
  | fputs
  deriving DecidableEq, Repr

/-- There is something to read from `fd`, or a connection to accept. -/
def Session.readable (listenfd : ℕ) (t : Session) (fd : ℤ) : Bool :=
  match t.conn with
  | none => fd == listenfd
  | some connfd => fd == connfd && t.up != []

/-- The `revents` of the entries that `poll` is given. -/
def Session.revents (listenfd : ℕ) (t : Session) : List UInt16 :=
  (List.range (t.srv.maxi + 1)).map fun i =>
    if t.readable listenfd (t.srv.client i).fd then (t.srv.client i).events &&& pollRdNorm else 0

/-- How many entries have events. -/
def Session.nready (listenfd : ℕ) (t : Session) : ℕ :=
  ((t.revents listenfd).filter (· != 0)).length

/-- Entry `i` of the server is the connection. -/
def Session.serves (t : Session) (i : ℕ) : Bool :=
  match t.conn with
  | none => false
  | some connfd => (t.srv.client i).fd == connfd

/-- The server's `poll` returns when there is something to report. -/
def Session.poll (listenfd : ℕ) (t : Session) : Option Session :=
  if t.nready listenfd = 0 then none
  else
    (step t.srv (.poll (t.nready listenfd) (t.revents listenfd))).map fun srv =>
      { t with srv := srv }

/-- The server's `accept` returns a new descriptor for the connection. -/
def Session.accept (listenfd : ℕ) (t : Session) (connfd : ℕ) : Option Session :=
  if t.conn = none ∧ connfd ≠ listenfd then
    (step t.srv (.accept connfd)).map fun srv => { t with srv := srv, conn := some connfd }
  else none

/-- The server's `read` takes the first `n` bytes that are on the way. -/
def Session.read (t : Session) (n : ℕ) : Option Session :=
  match t.srv.pc with
  | .read i =>
    if t.serves i ∧ 1 ≤ n ∧ n ≤ t.up.length then
      (step t.srv (.read (t.up.take n))).map fun srv => { t with srv := srv, up := t.up.drop n }
    else none
  | _ => none

/-- The server's `write` sends all it has read. -/
def Session.write (t : Session) : Option Session :=
  match t.srv.pc with
  | .write i bs =>
    if t.serves i then
      (step t.srv (.write bs.length)).map fun srv => { t with srv := srv, down := t.down ++ bs }
    else none
  | _ => none

/-- `fgets` stores the next line, or the client is done. -/
def Session.fgets (t : Session) : Session :=
  if t.stdin = [] then { t with pc := .exited }
  else
    let line := fgetsLine (maxLine - 1) t.stdin
    { t with sendline := line, stdin := t.stdin.drop line.length, pc := .write }

/-- `write(sockfd, sendline, strlen(sendline))`; `readline` starts. -/
def Session.send (t : Session) : Session :=
  { t with up := t.up ++ cstr t.sendline, recvline := [], pc := .readline }

/-- `readline` stores a byte. It is done at a newline, and when there is room for a NUL only. -/
def Session.recv (t : Session) : Option Session :=
  match t.down with
  | [] => none
  | c :: down =>
    let recvline := t.recvline ++ [c]
    some { t with
      down := down
      recvline := recvline
      pc := if c = 10 ∨ ¬recvline.length + 1 < maxLine then .fputs else .readline }

/-- `fputs(recvline, stdout)`. -/
def Session.fputs (t : Session) : Session :=
  { t with stdout := t.stdout ++ cstr t.recvline, pc := .fgets }

/-- One call of the server or of the client. The session ends when `str_cli` returns. -/
def Session.step (listenfd : ℕ) (t : Session) (a : Action) : Option Session :=
  match t.pc, a with
  | .exited, _ => none
  | _, .poll => t.poll listenfd
  | _, .accept connfd => t.accept listenfd connfd
  | _, .read n => t.read n
  | _, .write => t.write
  | .fgets, .fgets => some t.fgets
  | .write, .send => some t.send
  | .readline, .recv => t.recv
  | .fputs, .fputs => some t.fputs
  | _, _ => none

/-! ## What a step does -/

/-- The outcomes of a step. -/
inductive Session.Outcome (listenfd : ℕ) (t : Session) : Action → Session → Prop
  | poll {srv} : t.nready listenfd ≠ 0 →
      Poll.step t.srv (.poll (t.nready listenfd) (t.revents listenfd)) = some srv →
      Outcome listenfd t .poll { t with srv := srv }
  | accept {connfd srv} : t.conn = none → connfd ≠ listenfd →
      Poll.step t.srv (.accept connfd) = some srv →
      Outcome listenfd t (.accept connfd) { t with srv := srv, conn := some connfd }
  | read {i n srv} : t.srv.pc = .read i → 1 ≤ n → n ≤ t.up.length →
      Poll.step t.srv (.read (t.up.take n)) = some srv →
      Outcome listenfd t (.read n) { t with srv := srv, up := t.up.drop n }
  | write {i bs srv} : t.srv.pc = .write i bs →
      Poll.step t.srv (.write bs.length) = some srv →
      Outcome listenfd t .write { t with srv := srv, down := t.down ++ bs }
  | fgets {line stdin} : t.pc = .fgets → t.stdin ≠ [] → line = fgetsLine (maxLine - 1) t.stdin →
      stdin = t.stdin.drop line.length →
      Outcome listenfd t .fgets { t with sendline := line, stdin := stdin, pc := .write }
  | eof : t.pc = .fgets → t.stdin = [] → Outcome listenfd t .fgets { t with pc := .exited }
  | send : t.pc = .write → Outcome listenfd t .send
      { t with up := t.up ++ cstr t.sendline, recvline := [], pc := .readline }
  | recv {c down} : t.pc = .readline → t.down = c :: down → c ≠ 10 →
      (t.recvline ++ [c]).length + 1 < maxLine →
      Outcome listenfd t .recv { t with down := down, recvline := t.recvline ++ [c] }
  | recvLast {c down} : t.pc = .readline → t.down = c :: down →
      (c = 10 ∨ maxLine ≤ (t.recvline ++ [c]).length + 1) → Outcome listenfd t .recv
        { t with down := down, recvline := t.recvline ++ [c], pc := .fputs }
  | fputs : t.pc = .fputs → Outcome listenfd t .fputs
      { t with stdout := t.stdout ++ cstr t.recvline, pc := .fgets }

/-- A step has one of the outcomes, and the client has not exited before it. -/
theorem Session.step_outcome {listenfd : ℕ} {t t' : Session} {a : Action}
    (h : t.step listenfd a = some t') : t.pc ≠ .exited ∧ Outcome listenfd t a t' := by
  unfold Session.step at h
  split at h
  · exact absurd h.symm (Option.some_ne_none t')
  · rename_i hpc
    refine ⟨hpc, ?_⟩
    unfold Session.poll at h
    split_ifs at h with hready
    obtain ⟨srv, hsrv, rfl⟩ := Option.map_eq_some_iff.mp h
    exact .poll hready hsrv
  · rename_i connfd hpc
    refine ⟨hpc, ?_⟩
    unfold Session.accept at h
    split_ifs at h with hconn
    obtain ⟨srv, hsrv, rfl⟩ := Option.map_eq_some_iff.mp h
    exact .accept hconn.1 hconn.2 hsrv
  · rename_i n hpc
    refine ⟨hpc, ?_⟩
    unfold Session.read at h
    split at h
    · rename_i i hread
      split_ifs at h with hn
      obtain ⟨srv, hsrv, rfl⟩ := Option.map_eq_some_iff.mp h
      exact .read hread hn.2.1 hn.2.2 hsrv
    · exact absurd h.symm (Option.some_ne_none t')
  · rename_i hpc
    refine ⟨hpc, ?_⟩
    unfold Session.write at h
    split at h
    · rename_i i bs hwrite
      split_ifs at h
      obtain ⟨srv, hsrv, rfl⟩ := Option.map_eq_some_iff.mp h
      exact .write hwrite hsrv
    · exact absurd h.symm (Option.some_ne_none t')
  · rename_i hpc
    refine ⟨by rw [hpc]; nofun, ?_⟩
    obtain rfl := Option.some.inj h
    unfold Session.fgets
    split_ifs with hstdin
    · exact .eof hpc hstdin
    · exact .fgets hpc hstdin rfl rfl
  · rename_i hpc
    refine ⟨by rw [hpc]; nofun, ?_⟩
    obtain rfl := Option.some.inj h
    exact .send hpc
  · rename_i hpc
    refine ⟨by rw [hpc]; nofun, ?_⟩
    unfold Session.recv at h
    split at h
    · exact absurd h.symm (Option.some_ne_none t')
    · rename_i c down hdown
      obtain rfl := Option.some.inj h
      split_ifs with hlast
      · exact .recvLast hpc hdown (hlast.imp_right Nat.le_of_not_lt)
      · rw [not_or, not_not] at hlast
        rw [← hpc]
        exact .recv hpc hdown hlast.1 hlast.2
  · rename_i hpc
    refine ⟨by rw [hpc]; nofun, ?_⟩
    obtain rfl := Option.some.inj h
    exact .fputs hpc
  · exact absurd h.symm (Option.some_ne_none t')

/-! ## The server of one client -/

/-- The server before it has accepted the client. -/
structure Fresh (listenfd : ℕ) (s : State) : Prop where
  maxi : s.maxi = 0
  listen : (s.client 0).fd = listenfd ∧ (s.client 0).events = pollRdNorm
  free : ∀ i, 1 ≤ i → (s.client i).fd = -1
  pc : s.pc = .poll ∨ s.pc = .accept

/-- The server after it has accepted the client, in entry 1. -/
structure Connected (listenfd connfd : ℕ) (s : State) : Prop where
  maxi : s.maxi = 1
  listen : (s.client 0).fd = listenfd
  conn : (s.client 1).fd = connfd ∧ (s.client 1).events = pollRdNorm
  pc : s.pc = .poll ∨ s.pc = .read 1 ∨ ∃ bs, bs ≠ [] ∧ s.pc = .write 1 bs

/-- The server is fresh at the start, whatever the entries hold. -/
theorem Fresh.start (listenfd : ℕ) (mem : ℕ → Pollfd) (nready : ℤ) :
    Fresh listenfd (.start listenfd mem nready) :=
  ⟨rfl, ⟨rfl, rfl⟩, fun _ hi => State.fd_start (Nat.ne_of_gt hi), Or.inl rfl⟩

/-- `poll` reports the connection to accept. -/
theorem Fresh.poll {listenfd : ℕ} {s : State} (h : Fresh listenfd s) (hpc : s.pc = .poll)
    (nready : ℤ) : ∃ s', step s (.poll nready [pollRdNorm]) = some s' ∧ Fresh listenfd s' ∧
      s'.pc = .accept := by
  have hrevents : [pollRdNorm].length = s.maxi + 1 ∧
      ∀ i < s.maxi + 1, (s.client i).fd < 0 → [pollRdNorm].getD i 0 = 0 := by
    rw [h.maxi]
    refine ⟨rfl, fun i hi hneg => ?_⟩
    obtain rfl : i = 0 := by omega
    rw [h.listen.1] at hneg
    omega
  have hlisten : ((s.report nready [pollRdNorm]).client 0).revents = pollRdNorm :=
    State.revents_report s nready _ (Nat.succ_pos _)
  have hstep : step s (.poll nready [pollRdNorm]) =
      some { s.report nready [pollRdNorm] with pc := .accept } := by
    unfold step
    rw [hpc]
    dsimp only
    unfold State.poll
    rw [if_pos hrevents]
    dsimp only
    rw [hlisten, if_pos (by decide)]
  refine ⟨_, hstep, ⟨h.maxi, ⟨?_, ?_⟩, fun i hi => ?_, Or.inr rfl⟩, rfl⟩
  · exact (State.fd_report s nready _ 0).trans h.listen.1
  · exact (State.events_report s nready _ 0).trans h.listen.2
  · exact (State.fd_report s nready _ i).trans (h.free i hi)

/-- `accept` stores the client in entry 1. -/
theorem Fresh.accept {listenfd : ℕ} {s : State} (h : Fresh listenfd s) (hpc : s.pc = .accept)
    (connfd : ℕ) : ∃ s', step s (.accept connfd) = some s' ∧ Connected listenfd connfd s' ∧
      (s'.pc = .poll ∨ s'.pc = .read 1) := by
  have hfree : s.free = some 1 := by
    refine firstIn_of_true ?_ (by decide)
    rw [h.free 1 le_rfl]
    rfl
  have hmaxi : (s.store 1 connfd).maxi = 1 := by
    show (if s.maxi < 1 then 1 else s.maxi) = 1
    rw [h.maxi]
    rfl
  have hnext := (s.store 1 connfd).next_maxi
  rw [hmaxi] at hnext
  have haccept : s.accept connfd = { s.store 1 connfd with
      pc := if (s.store 1 connfd).nready < 0 then .poll else (s.store 1 connfd).next 1 } := by
    unfold State.accept
    rw [hfree]
  have hpc' : (s.accept connfd).pc = .poll ∨ (s.accept connfd).pc = .read 1 := by
    rw [haccept]
    dsimp only
    split_ifs
    · exact Or.inl rfl
    · exact hnext
  have hstep : step s (.accept connfd) = some (s.accept connfd) := by
    unfold step
    rw [hpc]
  refine ⟨_, hstep, ⟨?_, ?_, ?_, hpc'.imp_right Or.inl⟩, hpc'⟩
  · rw [haccept]
    exact hmaxi
  · rw [haccept]
    exact (congrArg Pollfd.fd (s.client_store_of_ne connfd Nat.zero_ne_one)).trans h.listen.1
  · rw [haccept]
    show ((s.store 1 connfd).client 1).fd = connfd ∧ _
    rw [State.client_store_self]
    exact ⟨rfl, rfl⟩

/-- `poll` reports the bytes to read. -/
theorem Connected.poll {listenfd connfd : ℕ} {s : State} (h : Connected listenfd connfd s)
    (hpc : s.pc = .poll) (nready : ℤ) : ∃ s', step s (.poll nready [0, pollRdNorm]) = some s' ∧
      Connected listenfd connfd s' ∧ s'.pc = .read 1 := by
  have hrevents : [0, pollRdNorm].length = s.maxi + 1 ∧
      ∀ i < s.maxi + 1, (s.client i).fd < 0 → [0, pollRdNorm].getD i 0 = 0 := by
    rw [h.maxi]
    refine ⟨rfl, fun i hi hneg => ?_⟩
    obtain rfl | rfl : i = 0 ∨ i = 1 := by omega
    · rfl
    · rw [h.conn.1] at hneg
      omega
  have hlisten : ((s.report nready [0, pollRdNorm]).client 0).revents = 0 :=
    State.revents_report s nready _ (Nat.succ_pos _)
  have hconn : ((s.report nready [0, pollRdNorm]).client 1).revents = pollRdNorm :=
    State.revents_report s nready _ (by rw [h.maxi]; decide)
  have hfd : ((s.report nready [0, pollRdNorm]).client 1).fd = connfd :=
    (State.fd_report s nready _ 1).trans h.conn.1
  have hready : (s.report nready [0, pollRdNorm]).ready 1 = true := by
    unfold State.ready State.flagged
    rw [hconn, hfd, decide_eq_true (Int.natCast_nonneg connfd)]
    rfl
  have hnext : (s.report nready [0, pollRdNorm]).next 1 = .read 1 :=
    State.next_of_ready hready h.maxi.ge
  have hstep : step s (.poll nready [0, pollRdNorm]) =
      some { s.report nready [0, pollRdNorm] with pc := .read 1 } := by
    unfold step
    rw [hpc]
    dsimp only
    unfold State.poll
    rw [if_pos hrevents]
    dsimp only
    rw [hlisten, if_neg (by decide), hnext]
  refine ⟨_, hstep, ⟨h.maxi, ?_, ⟨hfd, ?_⟩, Or.inr (Or.inl rfl)⟩, rfl⟩
  · exact (State.fd_report s nready _ 0).trans h.listen
  · exact (State.events_report s nready _ 1).trans h.conn.2

/-- `read` takes fewer bytes than fill `buf`. -/
theorem Connected.read {listenfd connfd : ℕ} {s : State} (h : Connected listenfd connfd s)
    (hpc : s.pc = .read 1) {bs : List UInt8} (hbs : bs ≠ []) (hlen : bs.length < maxLine) :
    ∃ s', step s (.read bs) = some s' ∧ Connected listenfd connfd s' ∧ s'.pc = .write 1 bs := by
  have hstep : step s (.read bs) = some { s with pc := .write 1 bs } := by
    unfold step
    rw [hpc]
    dsimp only
    unfold State.read
    rw [if_pos ⟨hbs, hlen.le⟩]
    dsimp only
    rw [if_pos (zero_mem_buf hlen)]
  exact ⟨_, hstep, ⟨h.maxi, h.listen, h.conn, Or.inr (Or.inr ⟨bs, hbs, rfl⟩)⟩, rfl⟩

/-- `write` sends them back. -/
theorem Connected.write {listenfd connfd : ℕ} {s : State} (h : Connected listenfd connfd s)
    {bs : List UInt8} (hpc : s.pc = .write 1 bs) :
    ∃ s', step s (.write bs.length) = some s' ∧ Connected listenfd connfd s' ∧ s'.pc = .poll := by
  have hnext : State.next { s with nready := s.nready - 1 } 2 = .poll :=
    State.next_of_lt (show s.maxi < 2 by rw [h.maxi]; decide)
  have hstep : step s (.write bs.length) = some { s with nready := s.nready - 1, pc := .poll } := by
    unfold step
    rw [hpc]
    dsimp only
    unfold State.write
    rw [if_pos ⟨by omega, le_rfl⟩, if_neg (not_not.mpr rfl)]
    unfold State.handled
    dsimp only
    rw [hnext, ite_self]
  exact ⟨_, hstep, ⟨h.maxi, h.listen, h.conn, Or.inl rfl⟩, rfl⟩

/-- A fresh server is told of the connection to accept. -/
theorem Session.revents_fresh {listenfd : ℕ} {t : Session} (hconn : t.conn = none)
    (h : Fresh listenfd t.srv) :
    t.revents listenfd = [pollRdNorm] ∧ t.nready listenfd = 1 := by
  have hrevents : t.revents listenfd = [pollRdNorm] := by
    unfold Session.revents Session.readable
    rw [h.maxi, hconn, List.range_one, List.map_singleton, h.listen.1, h.listen.2]
    rw [if_pos (beq_self_eq_true _)]
    rfl
  refine ⟨hrevents, ?_⟩
  unfold Session.nready
  rw [hrevents]
  rfl

/-- A connected server is told of the bytes to read, if there are any. -/
theorem Session.revents_connected {listenfd connfd : ℕ} {t : Session} (hconn : t.conn = some connfd)
    (hne : connfd ≠ listenfd) (h : Connected listenfd connfd t.srv) :
    (t.up = [] → t.nready listenfd = 0) ∧
      (t.up ≠ [] → t.revents listenfd = [0, pollRdNorm] ∧ t.nready listenfd = 1) := by
  have hlisten : t.readable listenfd listenfd = false := by
    unfold Session.readable
    rw [hconn]
    have hfd : ((listenfd : ℤ) == connfd) = false := beq_false_of_ne (by omega)
    dsimp only
    rw [hfd, Bool.false_and]
  have hready : t.readable listenfd connfd = (t.up != []) := by
    unfold Session.readable
    rw [hconn]
    dsimp only
    rw [beq_self_eq_true, Bool.true_and]
  have hrevents : t.revents listenfd = [0, if t.up != [] then pollRdNorm else 0] := by
    unfold Session.revents
    rw [h.maxi, show List.range (1 + 1) = [0, 1] from rfl, List.map_cons, List.map_singleton,
      h.listen, h.conn.1, h.conn.2, hlisten, hready]
    rfl
  have hnready : t.nready listenfd = ((t.revents listenfd).filter (· != 0)).length := rfl
  rw [hnready, hrevents]
  refine ⟨fun hup => ?_, fun hup => ?_⟩
  · rw [hup]
    rfl
  · rw [bne_iff_ne.mpr hup]
    exact ⟨rfl, rfl⟩

/-! ## Chunks -/

/-- What `fgets` has read of an input that goes on with `rest`: some bytes, no more than `sendline`
has room for, and none after a newline. Without a newline, and with room for more, they are the last
ones. -/
structure Chunk (line rest : List UInt8) : Prop where
  ne_nil : line ≠ []
  length_lt : line.length < maxLine
  newline_last : 10 ∉ line.dropLast
  rest_eq_nil : 10 ∉ line → line.length + 1 < maxLine → rest = []

/-- `fgets` reads a chunk. -/
theorem chunk_fgetsLine {stdin : List UInt8} (h : stdin ≠ []) :
    Chunk (fgetsLine (maxLine - 1) stdin)
      (stdin.drop (fgetsLine (maxLine - 1) stdin).length) := by
  obtain ⟨-, hlen⟩ := fgetsLine_spec (maxLine - 1) stdin
  refine ⟨fgetsLine_ne_nil (maxLine - 2) h, Nat.lt_succ_of_le hlen, notMem_dropLast_fgetsLine _ _,
    fun hnewline hlt => drop_fgetsLine_eq_nil hnewline (Nat.lt_sub_of_add_lt hlt)⟩

/-- `readline` is done with a line: it has read a newline, or `recvline` is full. -/
def Complete (line : List UInt8) : Prop := 10 ∈ line ∨ maxLine ≤ line.length + 1

/-- Once `readline` is done, it has read the whole chunk, which has no NUL. -/
theorem Chunk.eq_of_complete {line rest recvline wire : List UInt8} (h : Chunk line rest)
    (heq : cstr line = recvline ++ wire) (hcomplete : Complete recvline) :
    recvline = line ∧ wire = [] ∧ 0 ∉ line := by
  obtain ⟨post, hpost⟩ : cstr line <+: line := List.takeWhile_prefix _
  rw [heq, List.append_assoc] at hpost
  have hnil : wire ++ post = [] := by
    by_contra hne
    rcases hcomplete with hnewline | hfull
    · -- The newline is the last byte of the chunk.
      refine h.newline_last ?_
      rw [← hpost, List.dropLast_append_of_ne_nil hne]
      exact List.mem_append_left _ hnewline
    · have hlen := h.length_lt
      have hpos := List.length_pos_iff.mpr hne
      rw [← hpost, List.length_append] at hlen
      omega
  obtain ⟨hwire, -⟩ := List.append_eq_nil_iff.mp hnil
  rw [hnil, List.append_nil] at hpost
  rw [hwire, List.append_nil, hpost] at heq
  exact ⟨hpost, hwire, heq ▸ zero_notMem_cstr line⟩

/-- The bytes after the last newline. -/
def unterminated (bytes : List UInt8) : List UInt8 := bytes.rtakeWhile (· != 10)

/-- A newline leaves nothing unterminated. -/
theorem unterminated_newline (bytes : List UInt8) : unterminated (bytes ++ [10]) = [] :=
  List.rtakeWhile_concat_neg _ _ _ (by decide)

/-- Bytes without a newline are unterminated. -/
theorem unterminated_append {line : List UInt8} (bytes : List UInt8) (h : 10 ∉ line) :
    unterminated (bytes ++ line) = unterminated bytes ++ line := by
  have hline : ∀ c ∈ line.reverse, (c != 10) = true := by
    intro c hc
    refine bne_iff_ne.mpr ?_
    rintro rfl
    exact h (List.mem_reverse.mp hc)
  unfold unterminated List.rtakeWhile
  rw [List.reverse_append, List.takeWhile_append_of_pos hline, List.reverse_append,
    List.reverse_reverse]

/-- Every chunk of the bytes ends in a way that `readline` notices: there is no NUL among them, and
those after the last newline make full chunks. -/
def Terminated (bytes : List UInt8) : Prop := 0 ∉ bytes ∧ maxLine - 1 ∣ (unterminated bytes).length

/-- One more chunk, that `readline` is done with. -/
theorem Terminated.append {bytes line rest : List UInt8} (hbytes : Terminated bytes)
    (h : Chunk line rest) (hcomplete : Complete line) (hline : 0 ∉ line) :
    Terminated (bytes ++ line) := by
  refine ⟨fun hmem => (List.mem_append.mp hmem).elim hbytes.1 hline, ?_⟩
  by_cases hnewline : 10 ∈ line
  · -- The newline is the last byte.
    have hlast := List.dropLast_append_getLast h.ne_nil
    have hgetLast : line.getLast h.ne_nil = 10 := by
      rw [← hlast, List.mem_append, List.mem_singleton] at hnewline
      exact (hnewline.resolve_left h.newline_last).symm
    rw [← hlast, hgetLast, ← List.append_assoc, unterminated_newline]
    exact dvd_zero _
  · have hlen := h.length_lt
    have hfull := hcomplete.resolve_left hnewline
    rw [unterminated_append bytes hnewline, List.length_append]
    exact dvd_add hbytes.2 (dvd_of_eq (by omega))

/-- One more chunk, that `readline` is not done with. -/
theorem Terminated.not_append {bytes line : List UInt8} (hbytes : Terminated bytes)
    (hne : line ≠ []) (hcomplete : ¬Complete line) : ¬Terminated (bytes ++ line) := by
  rintro ⟨-, hdvd⟩
  obtain ⟨hnewline, hlt⟩ := not_or.mp hcomplete
  rw [unterminated_append bytes hnewline, List.length_append, Nat.dvd_add_right hbytes.2] at hdvd
  have hle := Nat.le_of_dvd (List.length_pos_iff.mpr hne) hdvd
  omega

/-! ## The two parties in step -/

/-- The bytes that the server has read and not written back. -/
def Session.held (t : Session) : List UInt8 :=
  match t.srv.pc with
  | .write _ bs => bs
  | _ => []

/-- The bytes sent that the client has not read, the earliest first. -/
def Session.wire (t : Session) : List UInt8 := t.down ++ (t.held ++ t.up)

/-- The server is fresh until it accepts the connection, and connected from then on. -/
def ServerSync (listenfd : ℕ) (t : Session) : Prop :=
  t.conn = none ∧ Fresh listenfd t.srv ∨
    ∃ connfd, t.conn = some connfd ∧ connfd ≠ listenfd ∧ Connected listenfd connfd t.srv

/-- The client has printed a part of its input. In `readline`, what it has read and what is on the
wire are what it has sent; and there is nothing on the wire when it is not in `readline`. -/
def ClientSync (stdin : List UInt8) (t : Session) : Prop :=
  match t.pc with
  | .fgets => stdin = t.stdout ++ t.stdin ∧ t.wire = []
  | .write => stdin = t.stdout ++ (t.sendline ++ t.stdin) ∧ Chunk t.sendline t.stdin ∧ t.wire = []
  | .readline => stdin = t.stdout ++ (t.sendline ++ t.stdin) ∧ Chunk t.sendline t.stdin ∧
      cstr t.sendline = t.recvline ++ t.wire ∧ ¬Complete t.recvline
  | .fputs => stdin = t.stdout ++ (t.sendline ++ t.stdin) ∧ Chunk t.sendline t.stdin ∧
      t.recvline = t.sendline ∧ t.wire = [] ∧ Complete t.sendline ∧ 0 ∉ t.sendline
  | .exited => stdin = t.stdout

/-- The invariant of the session. -/
structure Sync (listenfd : ℕ) (stdin : List UInt8) (t : Session) : Prop where
  server : ServerSync listenfd t
  terminated : Terminated t.stdout
  client : ClientSync stdin t

/-- What the client still has to do. -/
def Session.clientCost (t : Session) : ℕ :=
  match t.pc with
  | .fgets => 1
  | .write => 9 * t.sendline.length + 3
  | .readline => 3
  | .fputs => 2
  | .exited => 0

/-- What the server still has to do, besides handling bytes. -/
def Session.serverCost (t : Session) : ℕ :=
  (match t.conn with
    | none => 4
    | some _ => 0) +
  match t.srv.pc with
    | .poll => 2
    | .accept | .read _ => 1
    | _ => 0

/-- A measure of what is left to do: each byte costs less, the further it has come. -/
def Session.cost (t : Session) : ℕ :=
  12 * t.stdin.length + t.clientCost + 8 * t.up.length + 4 * t.held.length + t.down.length +
    t.serverCost

/-- The server's `poll` keeps it in step. -/
theorem ServerSync.poll {listenfd : ℕ} {t : Session} (h : ServerSync listenfd t) {srv : State}
    (hready : t.nready listenfd ≠ 0)
    (hs : Poll.step t.srv (.poll (t.nready listenfd) (t.revents listenfd)) = some srv) :
    ServerSync listenfd { t with srv := srv } ∧ Session.wire { t with srv := srv } = t.wire ∧
      Session.cost { t with srv := srv } < t.cost := by
  have hpc : t.srv.pc = .poll := by
    cases step_outcome hs with
    | poll hpc => exact hpc
  rcases h with ⟨hconn, hfresh⟩ | ⟨connfd, hconn, hne, hconnected⟩
  · obtain ⟨hrevents, -⟩ := Session.revents_fresh hconn hfresh
    rw [hrevents] at hs
    obtain ⟨srv', hs', hfresh', hpc'⟩ := hfresh.poll hpc (t.nready listenfd)
    obtain rfl := Option.some.inj (hs.symm.trans hs')
    refine ⟨Or.inl ⟨hconn, hfresh'⟩, ?_, ?_⟩
    · simp only [Session.wire, Session.held, hpc, hpc']
    · simp only [Session.cost, Session.clientCost, Session.serverCost, Session.held, hpc, hpc']
      omega
  · obtain ⟨hidle, hbusy⟩ := Session.revents_connected hconn hne hconnected
    obtain ⟨hrevents, -⟩ := hbusy fun hup => hready (hidle hup)
    rw [hrevents] at hs
    obtain ⟨srv', hs', hconnected', hpc'⟩ := hconnected.poll hpc (t.nready listenfd)
    obtain rfl := Option.some.inj (hs.symm.trans hs')
    refine ⟨Or.inr ⟨connfd, hconn, hne, hconnected'⟩, ?_, ?_⟩
    · simp only [Session.wire, Session.held, hpc, hpc']
    · simp only [Session.cost, Session.clientCost, Session.serverCost, Session.held, hpc, hpc']
      omega

/-- The server's `accept` keeps it in step. -/
theorem ServerSync.accept {listenfd connfd : ℕ} {t : Session} (h : ServerSync listenfd t)
    {srv : State} (hconn : t.conn = none) (hne : connfd ≠ listenfd)
    (hs : Poll.step t.srv (.accept connfd) = some srv) :
    ServerSync listenfd { t with srv := srv, conn := some connfd } ∧
      Session.wire { t with srv := srv, conn := some connfd } = t.wire ∧
      Session.cost { t with srv := srv, conn := some connfd } < t.cost := by
  have hpc : t.srv.pc = .accept := by
    cases step_outcome hs with
    | accept _ hpc | acceptFull _ hpc => exact hpc
  rcases h with ⟨-, hfresh⟩ | ⟨_, hsome, -⟩
  · obtain ⟨srv', hs', hconnected, hpc'⟩ := hfresh.accept hpc connfd
    obtain rfl := Option.some.inj (hs.symm.trans hs')
    refine ⟨Or.inr ⟨connfd, rfl, hne, hconnected⟩, ?_, ?_⟩
    · rcases hpc' with hpc' | hpc' <;> simp only [Session.wire, Session.held, hpc, hpc']
    · rcases hpc' with hpc' | hpc' <;>
        simp only [Session.cost, Session.clientCost, Session.serverCost, Session.held, hconn, hpc,
          hpc'] <;> omega
  · exact absurd (hconn.symm.trans hsome).symm (Option.some_ne_none _)

/-- The server's `read` keeps it in step, when there are not so many bytes that they fill `buf`. -/
theorem ServerSync.read {listenfd n i : ℕ} {t : Session} (h : ServerSync listenfd t)
    {srv : State} (hpc : t.srv.pc = .read i) (hpos : 1 ≤ n) (hle : n ≤ t.up.length)
    (hup : t.up.length < maxLine) (hs : Poll.step t.srv (.read (t.up.take n)) = some srv) :
    ServerSync listenfd { t with srv := srv, up := t.up.drop n } ∧
      Session.wire { t with srv := srv, up := t.up.drop n } = t.wire ∧
      Session.cost { t with srv := srv, up := t.up.drop n } < t.cost := by
  rcases h with ⟨-, hfresh⟩ | ⟨connfd, hconn, hne, hconnected⟩
  · exact absurd hpc (by rcases hfresh.pc with hpc' | hpc' <;> rw [hpc'] <;> nofun)
  · obtain rfl : i = 1 := by
      rcases hconnected.pc with hpc' | hpc' | ⟨bs, -, hpc'⟩
      · exact absurd (hpc.symm.trans hpc') nofun
      · exact Pc.read.inj (hpc.symm.trans hpc')
      · exact absurd (hpc.symm.trans hpc') nofun
    have hlen : (t.up.take n).length = n := List.length_take_of_le hle
    have htake : t.up.take n ≠ [] := List.ne_nil_of_length_pos (by omega)
    obtain ⟨srv', hs', hconnected', hpc'⟩ := hconnected.read hpc htake (by omega)
    obtain rfl := Option.some.inj (hs.symm.trans hs')
    refine ⟨Or.inr ⟨connfd, hconn, hne, hconnected'⟩, ?_, ?_⟩
    · simp only [Session.wire, Session.held, hpc, hpc', List.take_append_drop, List.nil_append]
    · simp only [Session.cost, Session.clientCost, Session.serverCost, Session.held, hpc, hpc',
        hlen, List.length_drop, List.length_nil]
      omega

/-- The server's `write` keeps it in step. -/
theorem ServerSync.write {listenfd i : ℕ} {t : Session} (h : ServerSync listenfd t)
    {srv : State} {bs : List UInt8} (hpc : t.srv.pc = .write i bs)
    (hs : Poll.step t.srv (.write bs.length) = some srv) :
    ServerSync listenfd { t with srv := srv, down := t.down ++ bs } ∧
      Session.wire { t with srv := srv, down := t.down ++ bs } = t.wire ∧
      Session.cost { t with srv := srv, down := t.down ++ bs } < t.cost := by
  rcases h with ⟨-, hfresh⟩ | ⟨connfd, hconn, hne, hconnected⟩
  · exact absurd hpc (by rcases hfresh.pc with hpc' | hpc' <;> rw [hpc'] <;> nofun)
  · obtain ⟨rfl, hbs⟩ : i = 1 ∧ bs ≠ [] := by
      rcases hconnected.pc with hpc' | hpc' | ⟨bs', hbs', hpc'⟩
      · exact absurd (hpc.symm.trans hpc') nofun
      · exact absurd (hpc.symm.trans hpc') nofun
      · obtain ⟨hi, rfl⟩ := Pc.write.inj (hpc.symm.trans hpc')
        exact ⟨hi, hbs'⟩
    have hpos := List.length_pos_iff.mpr hbs
    obtain ⟨srv', hs', hconnected', hpc'⟩ := hconnected.write hpc
    obtain rfl := Option.some.inj (hs.symm.trans hs')
    refine ⟨Or.inr ⟨connfd, hconn, hne, hconnected'⟩, ?_, ?_⟩
    · simp only [Session.wire, Session.held, hpc, hpc', List.nil_append, List.append_assoc]
    · simp only [Session.cost, Session.clientCost, Session.serverCost, Session.held, hpc, hpc',
        List.length_append, List.length_nil]
      omega

/-- The client does not see a step of the server that keeps the bytes on the wire. -/
theorem ClientSync.of_wire {stdin : List UInt8} {t : Session} (h : ClientSync stdin t) {srv : State}
    {conn : Option ℕ} {up down : List UInt8}
    (hwire : Session.wire { t with srv := srv, conn := conn, up := up, down := down } = t.wire) :
    ClientSync stdin { t with srv := srv, conn := conn, up := up, down := down } := by
  unfold ClientSync at h ⊢
  rw [hwire]
  exact h

/-- There are fewer bytes on the wire than a buffer holds. -/
theorem ClientSync.length_up_lt {stdin : List UInt8} {t : Session} (h : ClientSync stdin t)
    (hpc : t.pc ≠ .exited) : t.up.length < maxLine := by
  have hwire : t.wire.length < maxLine := by
    unfold ClientSync at h
    split at h
    · rw [h.2]
      decide
    · rw [h.2.2]
      decide
    · obtain ⟨-, hchunk, hcstr, -⟩ := h
      have hle : (cstr t.sendline).length ≤ t.sendline.length :=
        (List.takeWhile_prefix _).length_le
      have hlt := hchunk.length_lt
      rw [hcstr, List.length_append] at hle
      omega
    · rw [h.2.2.2.1]
      decide
    · rename_i hexited
      exact absurd hexited hpc
  unfold Session.wire at hwire
  rw [List.length_append, List.length_append] at hwire
  omega

/-- The invariant holds at the start. -/
theorem Sync.start (listenfd : ℕ) (mem : ℕ → Pollfd) (nready : ℤ) (stdin : List UInt8) :
    Sync listenfd stdin (.start listenfd mem nready stdin) :=
  ⟨Or.inl ⟨rfl, .start listenfd mem nready⟩, ⟨List.not_mem_nil, dvd_zero _⟩, rfl, rfl⟩

/-- `fgets` takes a chunk of the input. -/
theorem ClientSync.fgets {stdin line rest : List UInt8} {t : Session} (h : ClientSync stdin t)
    (hpc : t.pc = .fgets) (hne : t.stdin ≠ []) (hline : line = fgetsLine (maxLine - 1) t.stdin)
    (hrest : rest = t.stdin.drop line.length) :
    ClientSync stdin { t with sendline := line, stdin := rest, pc := .write } ∧
      Session.cost { t with sendline := line, stdin := rest, pc := .write } < t.cost := by
  rw [ClientSync, hpc] at h
  obtain ⟨hsplit, -⟩ := fgetsLine_spec (maxLine - 1) t.stdin
  have hchunk := chunk_fgetsLine hne
  rw [← hline, ← hrest] at hsplit hchunk
  refine ⟨⟨?_, hchunk, h.2⟩, ?_⟩
  · rw [hsplit]
    exact h.1
  · have hlen := congrArg List.length hsplit
    have hpos := List.length_pos_iff.mpr hchunk.ne_nil
    rw [List.length_append] at hlen
    simp only [Session.cost, Session.clientCost, Session.held, Session.serverCost, hpc]
    omega

/-- The client sends the chunk. -/
theorem ClientSync.send {stdin : List UInt8} {t : Session} (h : ClientSync stdin t)
    (hpc : t.pc = .write) :
    ClientSync stdin { t with up := t.up ++ cstr t.sendline, recvline := [], pc := .readline } ∧
      Session.cost { t with up := t.up ++ cstr t.sendline, recvline := [], pc := .readline } <
        t.cost := by
  rw [ClientSync, hpc] at h
  obtain ⟨hstdin, hchunk, hwire⟩ := h
  refine ⟨⟨hstdin, hchunk, ?_, ?_⟩, ?_⟩
  · show cstr t.sendline = [] ++ (t.down ++ (t.held ++ (t.up ++ cstr t.sendline)))
    rw [← List.append_assoc t.held, ← List.append_assoc t.down]
    rw [show t.down ++ (t.held ++ t.up) = [] from hwire]
    rfl
  · exact not_or.mpr ⟨List.not_mem_nil, show ¬maxLine ≤ 0 + 1 by decide⟩
  · have hle : (cstr t.sendline).length ≤ t.sendline.length :=
      (List.takeWhile_prefix _).length_le
    have hpos := List.length_pos_iff.mpr hchunk.ne_nil
    simp only [Session.cost, Session.clientCost, Session.held, Session.serverCost, hpc,
      List.length_append]
    omega

/-- `readline` stores a byte of the chunk, which is not complete yet. -/
theorem ClientSync.recv {stdin down : List UInt8} {c : UInt8} {t : Session}
    (h : ClientSync stdin t) (hpc : t.pc = .readline) (hdown : t.down = c :: down) (hc : c ≠ 10)
    (hlt : (t.recvline ++ [c]).length + 1 < maxLine) :
    ClientSync stdin { t with down := down, recvline := t.recvline ++ [c] } ∧
      Session.cost { t with down := down, recvline := t.recvline ++ [c] } < t.cost := by
  rw [ClientSync, hpc] at h
  obtain ⟨hstdin, hchunk, hcstr, hcomplete⟩ := h
  rw [Session.wire, hdown, List.cons_append, List.append_cons] at hcstr
  constructor
  · rw [ClientSync, hpc]
    refine ⟨hstdin, hchunk, hcstr, ?_⟩
    rintro (hmem | hfull)
    · rcases List.mem_append.mp hmem with hmem | hmem
      · exact hcomplete (Or.inl hmem)
      · exact hc (List.mem_singleton.mp hmem).symm
    · exact absurd hlt (Nat.not_lt_of_le hfull)
  · simp only [Session.cost, Session.clientCost, Session.held, Session.serverCost, hpc, hdown,
      List.length_cons]
    omega

/-- `readline` stores the last byte of the chunk. -/
theorem ClientSync.recvLast {stdin down : List UInt8} {c : UInt8} {t : Session}
    (h : ClientSync stdin t) (hpc : t.pc = .readline) (hdown : t.down = c :: down)
    (hlast : c = 10 ∨ maxLine ≤ (t.recvline ++ [c]).length + 1) :
    ClientSync stdin { t with down := down, recvline := t.recvline ++ [c], pc := .fputs } ∧
      Session.cost { t with down := down, recvline := t.recvline ++ [c], pc := .fputs } <
        t.cost := by
  rw [ClientSync, hpc] at h
  obtain ⟨hstdin, hchunk, hcstr, -⟩ := h
  rw [Session.wire, hdown, List.cons_append, List.append_cons] at hcstr
  have hcomplete : Complete (t.recvline ++ [c]) := by
    refine hlast.imp_left ?_
    rintro rfl
    exact List.mem_append_right _ (List.mem_singleton_self 10)
  obtain ⟨hline, hnil, hzero⟩ := hchunk.eq_of_complete hcstr hcomplete
  refine ⟨⟨hstdin, hchunk, hline, hnil, hline ▸ hcomplete, hzero⟩, ?_⟩
  simp only [Session.cost, Session.clientCost, Session.held, Session.serverCost, hpc, hdown,
    List.length_cons]
  omega

/-- `fputs` writes the chunk. -/
theorem ClientSync.fputs {stdin : List UInt8} {t : Session} (h : ClientSync stdin t)
    (hpc : t.pc = .fputs) (hterm : Terminated t.stdout) :
    Terminated (t.stdout ++ cstr t.recvline) ∧
      ClientSync stdin { t with stdout := t.stdout ++ cstr t.recvline, pc := .fgets } ∧
      Session.cost { t with stdout := t.stdout ++ cstr t.recvline, pc := .fgets } < t.cost := by
  rw [ClientSync, hpc] at h
  obtain ⟨hstdin, hchunk, hline, hwire, hcomplete, hzero⟩ := h
  rw [hline, cstr_eq_self hzero]
  refine ⟨hterm.append hchunk hcomplete hzero, ⟨?_, hwire⟩, ?_⟩
  · rw [List.append_assoc]
    exact hstdin
  · simp only [Session.cost, Session.clientCost, Session.held, Session.serverCost, hpc]
    omega

/-- Every step keeps the invariant, and lowers the cost. -/
theorem Sync.step {listenfd : ℕ} {stdin : List UInt8} {t t' : Session} {a : Action}
    (h : Sync listenfd stdin t) (hs : t.step listenfd a = some t') :
    Sync listenfd stdin t' ∧ t'.cost < t.cost := by
  have hclient := h.client
  obtain ⟨hrunning, houtcome⟩ := Session.step_outcome hs
  cases houtcome with
  | poll hready hsrv =>
    obtain ⟨hserver, hwire, hcost⟩ := h.server.poll hready hsrv
    exact ⟨⟨hserver, h.terminated, hclient.of_wire hwire⟩, hcost⟩
  | accept hconn hne hsrv =>
    obtain ⟨hserver, hwire, hcost⟩ := h.server.accept hconn hne hsrv
    exact ⟨⟨hserver, h.terminated, hclient.of_wire hwire⟩, hcost⟩
  | read hpc hpos hle hsrv =>
    obtain ⟨hserver, hwire, hcost⟩ :=
      h.server.read hpc hpos hle (hclient.length_up_lt hrunning) hsrv
    exact ⟨⟨hserver, h.terminated, hclient.of_wire hwire⟩, hcost⟩
  | write hpc hsrv =>
    obtain ⟨hserver, hwire, hcost⟩ := h.server.write hpc hsrv
    exact ⟨⟨hserver, h.terminated, hclient.of_wire hwire⟩, hcost⟩
  | fgets hpc hne hline hrest =>
    obtain ⟨hsync, hcost⟩ := hclient.fgets hpc hne hline hrest
    exact ⟨⟨h.server, h.terminated, hsync⟩, hcost⟩
  | eof hpc hnil =>
    rw [ClientSync, hpc, hnil, List.append_nil] at hclient
    refine ⟨⟨h.server, h.terminated, hclient.1⟩, ?_⟩
    simp only [Session.cost, Session.clientCost, Session.held, Session.serverCost, hpc]
    omega
  | send hpc =>
    obtain ⟨hsync, hcost⟩ := hclient.send hpc
    exact ⟨⟨h.server, h.terminated, hsync⟩, hcost⟩
  | recv hpc hdown hc hlt =>
    obtain ⟨hsync, hcost⟩ := hclient.recv hpc hdown hc hlt
    exact ⟨⟨h.server, h.terminated, hsync⟩, hcost⟩
  | recvLast hpc hdown hlast =>
    obtain ⟨hsync, hcost⟩ := hclient.recvLast hpc hdown hlast
    exact ⟨⟨h.server, h.terminated, hsync⟩, hcost⟩
  | fputs hpc =>
    obtain ⟨hterm, hsync, hcost⟩ := hclient.fputs hpc h.terminated
    exact ⟨⟨h.server, hterm, hsync⟩, hcost⟩

/-! ## Where a session ends -/

/-- The client waits in `readline`, and all that it has sent has been echoed and read. -/
def Session.Stalled (t : Session) : Prop := t.pc = .readline ∧ t.wire = []

/-- A server that cannot go on has read and written back all that was sent to it. -/
theorem ServerSync.stuck {listenfd : ℕ} {t : Session} (h : ServerSync listenfd t)
    (hpoll : t.poll listenfd = none) (haccept : ∀ connfd, t.accept listenfd connfd = none)
    (hread : ∀ n, t.read n = none) (hwrite : t.write = none) : t.held = [] ∧ t.up = [] := by
  rcases h with ⟨hconn, hfresh⟩ | ⟨connfd, hconn, hne, hconnected⟩
  · -- There is a connection to report, or to accept.
    rcases hfresh.pc with hpc | hpc
    · obtain ⟨hrevents, hnready⟩ := Session.revents_fresh hconn hfresh
      obtain ⟨srv, hsrv, -⟩ := hfresh.poll hpc (1 : ℕ)
      rw [Session.poll, hnready, hrevents, if_neg Nat.one_ne_zero, hsrv] at hpoll
      exact absurd hpoll (Option.some_ne_none _)
    · obtain ⟨srv, hsrv, -⟩ := hfresh.accept hpc (listenfd + 1)
      have hnone := haccept (listenfd + 1)
      rw [Session.accept, if_pos ⟨hconn, Nat.succ_ne_self _⟩, hsrv] at hnone
      exact absurd hnone (Option.some_ne_none _)
  · have hserves : t.serves 1 = true := by
      unfold Session.serves
      rw [hconn, hconnected.conn.1]
      exact beq_self_eq_true _
    rcases hconnected.pc with hpc | hpc | ⟨bs, hbs, hpc⟩
    · refine ⟨by rw [Session.held, hpc], by_contra fun hup => ?_⟩
      obtain ⟨hrevents, hnready⟩ := (Session.revents_connected hconn hne hconnected).2 hup
      obtain ⟨srv, hsrv, -⟩ := hconnected.poll hpc (1 : ℕ)
      rw [Session.poll, hnready, hrevents, if_neg Nat.one_ne_zero, hsrv] at hpoll
      exact absurd hpoll (Option.some_ne_none _)
    · refine ⟨by rw [Session.held, hpc], by_contra fun hup => ?_⟩
      have hpos := List.length_pos_iff.mpr hup
      have hlen : (t.up.take 1).length = 1 := List.length_take_of_le hpos
      obtain ⟨srv, hsrv, -⟩ := hconnected.read hpc (List.ne_nil_of_length_pos (by omega))
        (hlen.trans_lt (by decide))
      have hnone := hread 1
      rw [Session.read, hpc] at hnone
      dsimp only at hnone
      rw [if_pos ⟨hserves, le_rfl, hpos⟩, hsrv] at hnone
      exact absurd hnone (Option.some_ne_none _)
    · obtain ⟨srv, hsrv, -⟩ := hconnected.write hpc
      rw [Session.write, hpc] at hwrite
      dsimp only at hwrite
      rw [if_pos hserves, hsrv] at hwrite
      exact absurd hwrite (Option.some_ne_none _)

/-- A session that cannot go on is over, or has stalled. -/
theorem Sync.stuck {listenfd : ℕ} {stdin : List UInt8} {t : Session} (h : Sync listenfd stdin t)
    (hstuck : ∀ a, t.step listenfd a = none) : t.pc = .exited ∨ t.Stalled := by
  cases hpc : t.pc with
  | exited => exact Or.inl rfl
  | fgets =>
    simp only [Session.step, hpc] at hstuck
    exact absurd (hstuck .fgets) (Option.some_ne_none _)
  | write =>
    simp only [Session.step, hpc] at hstuck
    exact absurd (hstuck .send) (Option.some_ne_none _)
  | fputs =>
    simp only [Session.step, hpc] at hstuck
    exact absurd (hstuck .fputs) (Option.some_ne_none _)
  | readline =>
    simp only [Session.step, hpc] at hstuck
    obtain ⟨hheld, hup⟩ := h.server.stuck (hstuck .poll) (fun connfd => hstuck (.accept connfd))
      (fun n => hstuck (.read n)) (hstuck .write)
    have hdown : t.down = [] := by
      have hnone := hstuck .recv
      dsimp only at hnone
      unfold Session.recv at hnone
      split at hnone
      · assumption
      · exact absurd hnone (Option.some_ne_none _)
    refine Or.inr ⟨hpc, ?_⟩
    rw [Session.wire, hdown, hheld, hup]
    rfl

/-- The client does not stall when every chunk of its input ends in a way that `readline` notices.
-/
theorem Sync.not_stalled {listenfd : ℕ} {stdin : List UInt8} {t : Session}
    (h : Sync listenfd stdin t) (hterm : Terminated stdin) : ¬t.Stalled := by
  rintro ⟨hpc, hwire⟩
  have hclient := h.client
  rw [ClientSync, hpc] at hclient
  obtain ⟨hstdin, hchunk, hcstr, hcomplete⟩ := hclient
  -- The chunk was sent up to its end, and so `readline` is not done with it.
  have hzero : 0 ∉ t.sendline := by
    intro hmem
    refine hterm.1 ?_
    rw [hstdin]
    exact List.mem_append_right _ (List.mem_append_left _ hmem)
  rw [cstr_eq_self hzero, hwire, List.append_nil] at hcstr
  rw [← hcstr] at hcomplete
  obtain ⟨hnewline, hlt⟩ := not_or.mp hcomplete
  -- It is the last one.
  have hrest := hchunk.rest_eq_nil hnewline (Nat.lt_of_not_le hlt)
  rw [hrest, List.append_nil] at hstdin
  rw [hstdin] at hterm
  exact h.terminated.not_append hchunk.ne_nil hcomplete hterm

/-! ## What is echoed -/

/-- With the input `stdin`, and whatever the server's memory holds, `acts` lead to `t`. -/
def Talks (listenfd : ℕ) (stdin : List UInt8) (acts : List Action) (t : Session) : Prop :=
  ∃ mem nready, Run (Session.step listenfd) anyStep (.start listenfd mem nready stdin) acts t

/-- The echo service on an input. Every `fputs` prints the chunk that `fgets` has read; the client
never waits for bytes that nobody sends; and every session comes to an end, with the input
printed. -/
structure Echoes (stdin : List UInt8) : Prop where
  prints : ∀ listenfd acts t, Talks listenfd stdin acts t → t.pc = .fputs →
    cstr t.recvline = t.sendline
  not_stalled : ∀ listenfd acts t, Talks listenfd stdin acts t → ¬t.Stalled
  output : ∀ listenfd acts t, Talks listenfd stdin acts t → (∀ a, t.step listenfd a = none) →
    t.pc = .exited ∧ t.stdout = stdin
  finite : ∃ n, ∀ listenfd acts t, Talks listenfd stdin acts t → acts.length ≤ n

/-- The invariant holds throughout a session. -/
theorem Talks.sync {listenfd : ℕ} {stdin : List UInt8} {acts : List Action} {t : Session}
    (h : Talks listenfd stdin acts t) : Sync listenfd stdin t := by
  obtain ⟨mem, nready, hrun⟩ := h
  exact hrun.invariant (Sync.start listenfd mem nready stdin) fun _ _ _ hs _ hstep =>
    (hs.step hstep).1

/-- The client gets its input echoed exactly when there is no NUL in it and the number of bytes
after its last newline is a multiple of 2047. -/
theorem echoes_input_iff (stdin : List UInt8) : Echoes stdin ↔ Terminated stdin := by
  constructor
  · intro h
    -- Some session cannot go on, and so has printed the input.
    obtain ⟨acts, t, hrun, hstuck⟩ := Run.exists_stuck (μ := Session.cost)
      (Sync.start 0 (fun _ => ⟨0, 0, 0⟩) 0 stdin) fun _ _ _ hs hstep => hs.step hstep
    have htalks : Talks 0 stdin acts t := ⟨_, _, hrun⟩
    rw [← (h.output 0 acts t htalks hstuck).2]
    exact htalks.sync.terminated
  · intro hterm
    refine ⟨fun listenfd acts t h hpc => ?_, fun listenfd acts t h => h.sync.not_stalled hterm,
      fun listenfd acts t h hstuck => ?_, 12 * stdin.length + 7, fun listenfd acts t h => ?_⟩
    · have hclient := h.sync.client
      rw [ClientSync, hpc] at hclient
      obtain ⟨-, -, hline, -, -, hzero⟩ := hclient
      rw [hline, cstr_eq_self hzero]
    · have hpc := (h.sync.stuck hstuck).resolve_right (h.sync.not_stalled hterm)
      have hclient := h.sync.client
      rw [ClientSync, hpc] at hclient
      exact ⟨hpc, hclient.symm⟩
    · obtain ⟨mem, nready, hrun⟩ := h
      have hle := hrun.length_add_le (Sync.start listenfd mem nready stdin) fun _ _ _ hs hstep =>
        hs.step hstep
      have hcost : (Session.start listenfd mem nready stdin).cost = 12 * stdin.length + 7 := rfl
      omega

/-- On an input of one letter, without a newline, the client stalls. -/
theorem not_echoes_letter : ¬∀ stdin, Echoes stdin := by
  intro h
  have hrun : Run (Session.step 3) anyStep (.start 3 (fun _ => ⟨0, 0, 0⟩) 0 [97])
      [.fgets, .send, .poll, .accept 4, .poll, .read 1, .write, .recv] _ := Run.of_exec rfl
  exact (h [97]).not_stalled 3 _ _ ⟨_, _, hrun⟩ ⟨rfl, rfl⟩

end CxxPandora.Poll
