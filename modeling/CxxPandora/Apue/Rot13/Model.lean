import CxxPandora.Lib.Machine
import CxxPandora.Lib.Windows
import Mathlib.Data.Finset.Basic
import Mathlib.Data.Finset.Card
import Mathlib.Data.Fintype.Basic

/-!
# The program that reads and writes asynchronously

`linux/apue.3e.exs/apue3/apue.3e/advio/rot13c2.c.in`, with the `translate` of `rot13a.c`. The
program has eight buffers. For each of them it starts a read of the next block of the input,
translates the block when the read is complete, starts the write of it at the same offset of the
output, and uses the buffer again when that is complete. The system may carry out the operations in
any order, and at any moment between two steps of the program (`Act.complete`); it may move fewer
bytes than it was asked to, and an operation may fail. A step of the program is one pass of the
inner loop, or what follows that loop. The input is a regular file that nobody changes, and the
calls that start an operation, `open`, `fstat` and `aio_fsync` do not fail.
-/

namespace CxxPandora.Apue.Rot13

open Lib

/-! ## The translation -/

/-- `isalpha`, in the locale that programs start with. -/
def isalpha (c : UInt8) : Bool := (65 ≤ c && c ≤ 90) || (97 ≤ c && c ≤ 122)

/-- Replaces a letter by the one that is 13 places away. -/
def translate (c : UInt8) : UInt8 :=
  if isalpha c then
    if c ≥ 110 then c - 13
    else if c ≥ 97 then c + 13
    else if c ≥ 78 then c - 13
    else c + 13
  else c

/-- What is translated twice is as before. -/
theorem translate_translate (c : UInt8) : translate (translate c) = c := by
  have h : ∀ n : Fin 256, translate (translate (UInt8.ofFin n)) = UInt8.ofFin n := by
    decide +kernel
  exact h c.toFin

/-! ## The state -/

/-- The size of a block. -/
def BSZ : ℕ := 4096

/-- The number of buffers. -/
def NBUF : ℕ := 8

/-- A block is not empty. -/
theorem BSZ_pos : 0 < BSZ := by decide

/-- What a buffer is used for. -/
inductive Rwop
  | UNUSED
  | READ_PENDING
  | WRITE_PENDING
  deriving DecidableEq

/-- The call that has started an operation. -/
inductive Call
  | aio_read
  | aio_write
  deriving DecidableEq

/-- What `aio_error` and `aio_return` say of an operation. -/
inductive Status
  | inProgress (call : Call)
  | done (n : ℕ)
  | failed
  deriving DecidableEq

/-- The control block of an operation. -/
structure Aiocb where
  aio_offset : ℕ
  aio_nbytes : ℕ
  status : Status

/-- A buffer. -/
structure Buf where
  op : Rwop
  last : Bool
  aiocb : Aiocb
  data : List UInt8

/-- How the program ends: with `exit(0)`, or with a message. -/
inductive Outcome
  | exited
  | quit
  deriving DecidableEq

/-- The output, the variables of `main`, and the place in its loop: `i` is the next buffer that the
inner loop looks at, or `NBUF` behind it. -/
structure Sys where
  outfile : List UInt8
  bufs : Fin NBUF → Buf
  aiolist : Fin NBUF → Bool
  numop : ℤ
  off : ℕ
  i : ℕ
  outcome : Option Outcome

/-- `main` in front of its loop. -/
def Sys.init : Sys where
  outfile := []
  bufs := fun _ => ⟨.UNUSED, false, ⟨0, 0, .done 0⟩, List.replicate BSZ 0⟩
  aiolist := fun _ => false
  numop := 0
  off := 0
  i := 0
  outcome := none

/-! ## The program -/

section

variable (infile : List UInt8)

/-- The inner loop with a buffer that is not used. -/
def Sys.startRead (s : Sys) (i : Fin NBUF) : Sys :=
  if s.off < infile.length then
    { s with
      bufs := Function.update s.bufs i { s.bufs i with
        op := .READ_PENDING
        last := (s.bufs i).last || s.off + BSZ ≥ infile.length
        aiocb := ⟨s.off, BSZ, .inProgress .aio_read⟩ }
      off := s.off + BSZ
      aiolist := Function.update s.aiolist i true
      numop := s.numop + 1 }
  else s

/-- The inner loop with a buffer that is being read into. -/
def Sys.startWrite (s : Sys) (i : Fin NBUF) : Sys :=
  match (s.bufs i).aiocb.status with
  | .inProgress _ => s
  | .failed => { s with outcome := some .quit }
  | .done n =>
    if n ≠ BSZ ∧ (s.bufs i).last = false then { s with outcome := some .quit }
    else { s with
      bufs := Function.update s.bufs i { s.bufs i with
        op := .WRITE_PENDING
        data := ((s.bufs i).data.take n).map translate ++ (s.bufs i).data.drop n
        aiocb := ⟨(s.bufs i).aiocb.aio_offset, n, .inProgress .aio_write⟩ } }

/-- The inner loop with a buffer that is being written. -/
def Sys.release (s : Sys) (i : Fin NBUF) : Sys :=
  match (s.bufs i).aiocb.status with
  | .inProgress _ => s
  | .failed => { s with outcome := some .quit }
  | .done n =>
    if n ≠ (s.bufs i).aiocb.aio_nbytes then { s with outcome := some .quit }
    else { s with
      bufs := Function.update s.bufs i { s.bufs i with op := .UNUSED }
      aiolist := Function.update s.aiolist i false
      numop := s.numop - 1 }

/-- The inner loop with a buffer. -/
def Sys.examine (s : Sys) (i : Fin NBUF) : Sys :=
  match (s.bufs i).op with
  | .UNUSED => s.startRead infile i
  | .READ_PENDING => s.startWrite i
  | .WRITE_PENDING => s.release i

/-- Whether the operation of a buffer is over. -/
def Buf.isOver (b : Buf) : Bool :=
  match b.aiocb.status with
  | .inProgress _ => false
  | _ => true

/-- A step of the program; `none` when it has ended, or waits in `aio_suspend`. -/
def Sys.go (s : Sys) : Option Sys :=
  if s.outcome.isSome then none
  else if h : s.i < NBUF then some { s.examine infile ⟨s.i, h⟩ with i := s.i + 1 }
  else if s.numop = 0 then
    if s.off ≥ infile.length then some { s with outcome := some .exited }
    else some { s with i := 0 }
  else if ∃ i, s.aiolist i = true ∧ (s.bufs i).isOver = true then some { s with i := 0 }
  else none

/-! ## The system -/

/-- How an operation ends. -/
inductive Result
  | bytes (n : ℕ)
  | error
  deriving DecidableEq

/-- What there is to read at the offset of a buffer, or to write. -/
def Buf.available (b : Buf) : Call → ℕ
  | .aio_read => min b.aiocb.aio_nbytes (infile.length - b.aiocb.aio_offset)
  | .aio_write => b.aiocb.aio_nbytes

/-- A buffer whose operation is over. -/
def Buf.over (b : Buf) (status : Status) : Buf :=
  { b with aiocb := { b.aiocb with status := status } }

/-- The system carries out the operation of a buffer; `none` when there is none, or when it cannot
move as many bytes. -/
def Sys.complete (s : Sys) (i : Fin NBUF) (r : Result) : Option Sys :=
  match (s.bufs i).aiocb.status, r with
  | .inProgress _, .error => some { s with
      bufs := Function.update s.bufs i ((s.bufs i).over .failed) }
  | .inProgress .aio_read, .bytes n =>
    if n ≤ (s.bufs i).available infile .aio_read then some { s with
      bufs := Function.update s.bufs i { (s.bufs i).over (.done n) with
        data := readAt infile (s.bufs i).aiocb.aio_offset n ++ (s.bufs i).data.drop n } }
    else none
  | .inProgress .aio_write, .bytes n =>
    if n ≤ (s.bufs i).available infile .aio_write then some { s with
      bufs := Function.update s.bufs i ((s.bufs i).over (.done n))
      outfile := if n = 0 then s.outfile
        else writeAt s.outfile (s.bufs i).aiocb.aio_offset ((s.bufs i).data.take n) }
    else none
  | .done _, _ => none
  | .failed, _ => none

/-- A step of the program, or an operation that the system carries out. -/
inductive Act
  | go
  | complete (i : Fin NBUF) (r : Result)

/-- The steps. -/
def step : Step Sys Act
  | s, .go => s.go infile
  | s, .complete i r => s.complete infile i r

end

end CxxPandora.Apue.Rot13
