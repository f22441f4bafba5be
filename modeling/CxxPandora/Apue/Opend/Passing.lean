import CxxPandora.Apue.Opend.Request
import CxxPandora.Lib.Machine

/-!
# Passing a descriptor

A connection between a client, which calls `csopen` again and again, and the server. `send_fd` and
`send_err` of `linux/apue.3e.exs/apue3/apue.3e/lib`, `recv_fd`, and the two programs of `ipc2/open`
and `ipc2/opend` around them, with each call of the system as a step. The server writes an error
message in as many pieces as `write` takes, and ends it with a NUL and a status; `recv_fd` may find
any number of these pieces when it comes to read, and prints what comes before the NUL. A read of
the connection ends behind bytes that came with a descriptor.

The server has other clients in the meantime, which leave `errmsg` with what they were told last,
and have files opened. The calls of the system on the connection do not fail, and neither party
leaves it. What the server does when it logs a message that is not a format is not defined; it then
takes no step any more. When `open` returns is left to the file: that of a FIFO waits for a writer.
-/

namespace CxxPandora.Apue.Opend

open Lib

/-! ## What is on the connection -/

/-- A file that the server has opened, by the number of files that it opened before. -/
structure File where
  id : ℕ
  pathname : List UInt8
  oflag : ℤ
  deriving DecidableEq

/-- What has been sent by one call: bytes, and perhaps a descriptor with them. -/
structure Segment where
  bytes : List UInt8
  rights : Option File
  deriving DecidableEq

/-- What `send_fd` is called with: a descriptor, or a negative number. -/
inductive Passed
  | file (f : File)
  | error (errcode : ℤ)
  deriving DecidableEq

/-- The status that says what the error was: nonzero. -/
def statusByte (errcode : ℤ) : UInt8 :=
  if UInt8.ofInt (-errcode) = 0 then 1 else UInt8.ofInt (-errcode)

/-- `send_fd`: a NUL and the status. -/
def send_fd : Passed → Segment
  | .file f => ⟨[0, 0], some f⟩
  | .error errcode => ⟨[0, statusByte errcode], none⟩

/-- `recvmsg` into a buffer with some room: the bytes, the descriptor that came with them, and what
is left. -/
def recvmsg : ℕ → List Segment → List UInt8 × Option File × List Segment
  | _, [] => ([], none, [])
  | room, seg :: segs =>
    if room = 0 then ([], none, seg :: segs)
    else if seg.bytes.length ≤ room then
      match seg.rights with
      | some f => (seg.bytes, some f, segs)
      | none =>
        let rest := recvmsg (room - seg.bytes.length) segs
        (seg.bytes ++ rest.1, rest.2)
    else (seg.bytes.take room, seg.rights, ⟨seg.bytes.drop room, none⟩ :: segs)

/-- What `recv_fd` and `csopen` return: a descriptor, or a status with its sign changed. -/
inductive Ret
  | fd (f : File)
  | error (status : ℕ)
  deriving DecidableEq

/-- What `recv_fd` makes of a buffer: text, text and the end of the reply, or `err_dump`. -/
inductive Received
  | more (text : List UInt8)
  | last (text : List UInt8) (ret : Ret)
  | err_dump (msg : String)
  deriving DecidableEq

/-- The loop of `recv_fd` over a buffer: the NUL is the last byte but one. -/
def scan (buf : List UInt8) (rights : Option File) : Received :=
  match buf.idxOf? 0 with
  | none => .more buf
  | some i =>
    if i + 2 ≠ buf.length then .err_dump "message format error"
    else
      let status := buf.getD (i + 1) 0
      if status = 0 then
        match rights with
        | none => .err_dump "status = 0 but no fd"
        | some f => .last (buf.take i) (.fd f)
      else .last (buf.take i) (.error status.toNat)

/-! ## The two programs -/

/-- Where the server is with this client, and whether it logs `errmsg` after the reply. -/
inductive Server
  | read
  | open_ (pathname : List UInt8) (oflag : ℤ)
  | writen (rest : List UInt8) (logged : Bool)
  | send_fd (passed : Passed) (logged : Bool)
  | undefined
  deriving DecidableEq

/-- Where the client is. In `recv_fd` it has printed a part of the reply. -/
inductive Client
  | outside
  | writev (r : Request)
  | recv_fd (r : Request) (printed : List UInt8)
  | dumped (msg : String)
  deriving DecidableEq

/-- What a call of `csopen` comes to: what it prints, and what it returns. -/
structure Answer where
  printed : List UInt8
  ret : Ret
  deriving DecidableEq

/-- A call of `csopen` that has returned, with what `errmsg` held when the server read the request:
what the last client was told that was told about an error. -/
structure Answered where
  request : Request
  last : Errmsg
  answer : Answer
  deriving DecidableEq

/-- The two programs, what `errmsg` held when the server read the last request, and what is on the
way in the two directions. The answers are those that the calls have come to so far. -/
structure Sys where
  errmsg : Errmsg
  last : Errmsg
  nfiles : ℕ
  server : Server
  toServer : List UInt8
  toClient : List Segment
  client : Client
  answers : List Answered
  deriving DecidableEq

/-- The connection has been made. -/
def Sys.init : Sys := ⟨.empty, .empty, 0, .read, [], [], .outside, []⟩

/-- `send_err`, up to its first call of the system. -/
def Sys.send_err (s : Sys) (errmsg : Errmsg) (logged : Bool) : Sys :=
  { s with
    errmsg := errmsg
    server :=
      if errmsg.chars = [] then .send_fd (.error (-1)) logged else .writen errmsg.chars logged }

/-- The end of a reply, after which `log_msg` may take `errmsg` for a format. -/
def Sys.log_msg (s : Sys) (logged : Bool) : Sys :=
  { s with server := if logged = true ∧ formatOk s.errmsg.chars = false then .undefined else .read }

/-- A call of `csopen` returns. -/
def Sys.return_ (s : Sys) (r : Request) (printed : List UInt8) (ret : Ret) : Sys :=
  { s with client := .outside, answers := s.answers ++ [⟨r, s.last, ⟨printed, ret⟩⟩] }

/-- A pass of the loop of `recv_fd`. The text is printed with `write`, which may write only some
bytes of it. -/
def Sys.receive (s : Sys) (r : Request) (printed : List UInt8) (short : Option ℕ) : Option Sys :=
  let msg := recvmsg MAXLINE s.toClient
  let s := { s with toClient := msg.2.2 }
  match scan msg.1 msg.2.1, short with
  | .more text, none => some { s with client := .recv_fd r (printed ++ text) }
  | .last text ret, none => some (s.return_ r (printed ++ text) ret)
  | .more text, some n | .last text _, some n =>
    if n < text.length then some (s.return_ r (printed ++ text.take n) (.error 1)) else none
  | .err_dump msg, _ => some { s with client := .dumped msg }

/-- The client calls `csopen` or makes its next call of the system; the server makes its next one,
in `open` with the error, if there is one, and in `write` with the number of bytes; or the server
serves others. -/
inductive Act
  | csopen (r : Request)
  | writev
  | recvmsg (short : Option ℕ)
  | read
  | open_ (strerror : Option CString)
  | write (n : ℕ)
  | sendmsg
  | others (errmsg : Errmsg) (nfiles : ℕ)

/-- The steps. -/
def step (uid : ℕ) : Step Sys Act
  | s, .csopen r => if s.client = .outside then some { s with client := .writev r } else none
  | s, .writev =>
    match s.client with
    | .writev r => some { s with toServer := s.toServer ++ r.bytes, client := .recv_fd r [] }
    | _ => none
  | s, .recvmsg short =>
    match s.client with
    | .recv_fd r printed => if s.toClient = [] then none else s.receive r printed short
    | _ => none
  | s, .read =>
    if s.server = .read ∧ s.toServer ≠ [] then
      let s' := { s with last := s.errmsg, toServer := s.toServer.drop MAXLINE }
      match handle_request s.errmsg (s.toServer.take MAXLINE) uid with
      | .send_err errmsg logged => some (s'.send_err errmsg logged)
      | .open_ pathname oflag => some { s' with server := .open_ pathname oflag }
    else none
  | s, .open_ strerror =>
    match s.server, strerror with
    | .open_ pathname oflag, none =>
      some { s with
        nfiles := s.nfiles + 1
        server := .send_fd (.file ⟨s.nfiles, pathname, oflag⟩) false }
    | .open_ pathname _, some strerror => some (s.send_err (.cantOpen pathname strerror) true)
    | _, _ => none
  | s, .write n =>
    match s.server with
    | .writen rest logged =>
      if 0 < n ∧ n ≤ rest.length then
        some { s with
          toClient := s.toClient ++ [⟨rest.take n, none⟩]
          server :=
            if n = rest.length then .send_fd (.error (-1)) logged
            else .writen (rest.drop n) logged }
      else none
    | _ => none
  | s, .sendmsg =>
    match s.server with
    | .send_fd passed logged =>
      some ({ s with toClient := s.toClient ++ [Opend.send_fd passed] }.log_msg logged)
    | _ => none
  | s, .others errmsg nfiles =>
    if s.server = .read then some { s with errmsg := errmsg, nfiles := s.nfiles + nfiles } else none

/-- A request fits the buffers, and has no `%` in its name. -/
structure Request.Proper (r : Request) : Prop where
  fits : r.Fits
  percent : 37 ∉ r.name.chars

/-- Every request is proper, `write` prints the whole of each text, and there is no `%` in what the
system says about an error and in what other clients are told. -/
def Uses (_ : Sys) : Act → Prop
  | .csopen r => r.Proper
  | .recvmsg short => short = none
  | .open_ (some strerror) => 37 ∉ strerror.chars
  | .others errmsg _ => 37 ∉ errmsg.chars
  | _ => True

/-! ## What a call is to come to -/

/-- The answers to a request. A name of one token is opened with the flags, or the client is told
why not; otherwise it is told about the usage, or, when there are too many tokens, what the last
client was told that was told about an error. -/
def Request.Meets (r : Request) (last : Errmsg) (a : Answer) : Prop :=
  match tokens WHITE r.name.chars with
  | [pathname] => (∃ id, a = ⟨[], .fd ⟨id, pathname, r.oflag⟩⟩) ∨
      ∃ strerror, a = ⟨(Errmsg.cantOpen pathname strerror).chars, .error 1⟩
  | ws => a = ⟨(if ws.length + 2 < MAXARGC then Errmsg.usage else last).chars, .error 1⟩

/-- The file that a descriptor has been returned for. -/
def Ret.file? : Ret → Option ℕ
  | .fd f => some f.id
  | .error _ => none

/-- The files that the client has been given descriptors of. -/
def Sys.files (s : Sys) : List ℕ := s.answers.filterMap fun q => q.answer.ret.file?

end CxxPandora.Apue.Opend
