import CxxPandora.Lib.Machine
import CxxPandora.Lib.Words
import Mathlib.Data.Int.Notation
import Mathlib.Logic.Function.Basic
import Mathlib.Algebra.BigOperators.Group.Finset.Defs
import Mathlib.Data.Fintype.Basic

/-!
# Semaphores that processes create, open and close

`linux/apue.3e.exs/apue3/apue.3e/lib/semaph.c`, over the semaphore sets of System V. A set has three
members: the value of the semaphore, a counter of the processes that use it, and a lock. Any number
of processes call the functions, and each system call is one step, so that they are interleaved in
every way. A process may end at any moment, also in the middle of a function, or with the semaphore
taken: the system then undoes what the process has done with `SEM_UNDO`. A process that waits in
`semop` while the set is removed gets `EIDRM`, and one that calls `semop` after that `EINVAL`.

There is one key, which is a valid one; ids of sets that have been removed are not used again, and
the system has room for a new set. The signal that interrupts a system call is not modelled.

The processes keep to rules of their own (`Uses`), which the functions do not check: an initial
value is one that a member can have, a process closes only what it has and gives back to the
semaphore only what it has taken from it, and fewer than `BIGCOUNT - 1` have the semaphore at one
time.
-/

namespace CxxPandora.Apue.Semaph

open Lib

/-- The initial value of the process counter. -/
def BIGCOUNT : ℤ := 10000

/-- The greatest value of a member of a set. -/
def SEMVMX : ℤ := 32767

/-- The members of a set: `[0]`, `[1]` and `[2]`. -/
inductive SemNum
  | value
  | counter
  | lock
  deriving DecidableEq

/-! ## The sets of the system -/

/-- A set, with what is undone for each process when it ends. -/
structure SemSet (τ : Type) where
  semid : ℕ
  semval : SemNum → ℤ
  semadj : τ → SemNum → ℤ

/-- An operation of `semop`. -/
structure Sembuf where
  sem_num : SemNum
  sem_op : ℤ
  SEM_UNDO : Bool

/-- What `semop` does: it changes the set, has to wait, or fails with `ERANGE`. -/
inductive Semop (τ : Type)
  | ok (set : SemSet τ)
  | blocked
  | failed

section Sets

variable {τ : Type} [DecidableEq τ]

/-- A set that has just been created. -/
def SemSet.create (semid : ℕ) : SemSet τ := ⟨semid, fun _ => 0, fun _ _ => 0⟩

/-- A process adds to a member. -/
def SemSet.add (S : SemSet τ) (t : τ) (num : SemNum) (op : ℤ) (undo : Bool) : SemSet τ where
  semid := S.semid
  semval := Function.update S.semval num (S.semval num + op)
  semadj := if undo then
    Function.update S.semadj t (Function.update (S.semadj t) num (S.semadj t num - op))
  else S.semadj

/-- One operation. -/
def SemSet.apply (S : SemSet τ) (t : τ) (sop : Sembuf) : Semop τ :=
  if sop.sem_op = 0 then
    if S.semval sop.sem_num = 0 then .ok S else .blocked
  else if S.semval sop.sem_num + sop.sem_op < 0 then .blocked
  else if S.semval sop.sem_num + sop.sem_op > SEMVMX then .failed
  else .ok (S.add t sop.sem_num sop.sem_op sop.SEM_UNDO)

/-- `semop`: all operations, or none. -/
def SemSet.semop (S : SemSet τ) (t : τ) : List Sembuf → Semop τ
  | [] => .ok S
  | sop :: sops =>
    match S.apply t sop with
    | .ok S' => S'.semop t sops
    | .blocked => .blocked
    | .failed => .failed

/-- `SETVAL`, which forgets what was to be undone of the member. -/
def SemSet.setval (S : SemSet τ) (num : SemNum) (val : ℤ) : SemSet τ where
  semid := S.semid
  semval := Function.update S.semval num val
  semadj := fun t => Function.update (S.semadj t) num 0

/-- What a process has done is undone; no member gets less than 0 or more than `SEMVMX`. -/
def SemSet.undo (S : SemSet τ) (t : τ) : SemSet τ where
  semid := S.semid
  semval := fun num => min SEMVMX (max 0 (S.semval num + S.semadj t num))
  semadj := Function.update S.semadj t fun _ => 0

end Sets

/-! ## The functions -/

/-- Wait for `[2]` to equal 0, and increment it. -/
def op_lock : List Sembuf := [⟨.lock, 0, false⟩, ⟨.lock, 1, true⟩]

/-- Decrement the process counter, and then `[2]`. -/
def op_endcreate : List Sembuf := [⟨.counter, -1, true⟩, ⟨.lock, -1, true⟩]

/-- Decrement the process counter. -/
def op_open : List Sembuf := [⟨.counter, -1, true⟩]

/-- Wait for `[2]` to equal 0, increment it, and then increment the process counter. -/
def op_close : List Sembuf := [⟨.lock, 0, false⟩, ⟨.lock, 1, true⟩, ⟨.counter, 1, true⟩]

/-- Decrement `[2]` back to 0. -/
def op_unlock : List Sembuf := [⟨.lock, -1, true⟩]

/-- Decrement or increment `[0]`; `sem_op` is a `short`. -/
def op_op (value : ℤ) : List Sembuf := [⟨.value, toShort value, true⟩]

/-- Where a process is in the functions: the system call that comes next, with the variables that
are still needed, and whether the process sleeps in that call already. -/
inductive Pc
  | createGet (initval : ℤ)
  | createLock (initval : ℤ) (id : ℕ) (asleep : Bool)
  | createGetval (initval : ℤ) (id : ℕ)
  | createSetval0 (initval : ℤ) (id : ℕ)
  | createSetval1 (id : ℕ)
  | createEnd (id : ℕ) (asleep : Bool)
  | openGet
  | openOp (id : ℕ) (asleep : Bool)
  | closeOp (id : ℕ) (asleep : Bool)
  | closeGetval (id : ℕ)
  | closeRm (id : ℕ)
  | closeUnlock (id : ℕ) (asleep : Bool)
  | opOp (id : ℕ) (value : ℤ) (asleep : Bool)
  deriving DecidableEq

/-- How a process ends: by itself, or with the message of `err_sys` or `err_dump`. -/
inductive Death
  | exited
  | cantLock
  | cantGETVAL
  | cantSETVAL
  | cantEndCreate
  | cantOpen
  | cantSemop
  | aboveBIGCOUNT
  | cantIPC_RMID
  | cantUnlock
  | zeroValue
  | semOpError
  deriving DecidableEq

/-- The calls of the functions. -/
inductive Call
  | sem_create (initval : ℤ)
  | sem_open
  | sem_close (id : ℕ)
  | sem_op (id : ℕ) (value : ℤ)

/-- The first system call of a function. -/
def Call.entry : Call → Pc
  | .sem_create initval => .createGet initval
  | .sem_open => .openGet
  | .sem_close id => .closeOp id false
  | .sem_op id value => .opOp id value false

/-- The set, if there is one, and the processes: where they are, how often they have created or
opened each set without closing it, and how they have ended. -/
structure Sys (τ : Type) where
  set : Option (SemSet τ)
  nextId : ℕ
  pc : τ → Option Pc
  held : τ → ℕ → ℕ
  died : τ → Option Death

section System

variable {τ : Type} [DecidableEq τ]

/-- No set, and processes that have done nothing. -/
def Sys.init : Sys τ := ⟨none, 0, fun _ => none, fun _ _ => 0, fun _ => none⟩

/-- A process goes to the next system call, or out of the functions. -/
def Sys.goto (s : Sys τ) (t : τ) (pc : Option Pc) : Sys τ :=
  { s with pc := Function.update s.pc t pc }

/-- A process goes on, and has the set once more, or less. -/
def Sys.hold (s : Sys τ) (t : τ) (id : ℕ) (f : ℕ → ℕ) : Sys τ :=
  { s with held := Function.update s.held t (Function.update (s.held t) id (f (s.held t id))) }

/-- A process ends, and the system undoes what it has done. -/
def Sys.die (s : Sys τ) (t : τ) (death : Death) : Sys τ where
  set := s.set.map fun S => S.undo t
  nextId := s.nextId
  pc := Function.update s.pc t none
  held := Function.update s.held t fun _ => 0
  died := Function.update s.died t (some death)

/-- The set with the given id, if it has not been removed. -/
def Sys.find (s : Sys τ) (id : ℕ) : Option (SemSet τ) := s.set.filter fun S => S.semid = id

/-- A process calls `semop`: it goes on, it sleeps, or it ends; a set that has been removed is an
error of its own. -/
def Sys.semop (s : Sys τ) (t : τ) (id : ℕ) (sops : List Sembuf) (asleep : Bool) (sleep : Pc)
    (removed : Sys τ) (death : Death) (next : Sys τ → Sys τ) : Option (Sys τ) :=
  match s.find id with
  | none => some removed
  | some S =>
    match S.semop t sops with
    | .ok S' => some (next { s with set := some S' })
    | .blocked => if asleep then none else some (s.goto t (some sleep))
    | .failed => some (s.die t death)

/-- The next system call of a process that is in a function. -/
def Sys.go (s : Sys τ) (t : τ) : Pc → Option (Sys τ)
  | .createGet initval =>
    match s.set with
    | some S => some (s.goto t (some (.createLock initval S.semid false)))
    | none => some ({ s with set := some (.create s.nextId), nextId := s.nextId + 1 }.goto t
        (some (.createLock initval s.nextId false)))
  | .createLock initval id asleep =>
    s.semop t id op_lock asleep (.createLock initval id true)
      (if asleep then s.die t .cantLock else s.goto t (some (.createGet initval))) .cantLock
      fun s => s.goto t (some (.createGetval initval id))
  | .createGetval initval id =>
    match s.find id with
    | none => some (s.die t .cantGETVAL)
    | some S =>
      if S.semval .counter = 0 then some (s.goto t (some (.createSetval0 initval id)))
      else some (s.goto t (some (.createEnd id false)))
  | .createSetval0 initval id =>
    match s.find id with
    | none => some (s.die t .cantSETVAL)
    | some S =>
      if 0 ≤ initval ∧ initval ≤ SEMVMX then
        some ({ s with set := some (S.setval .value initval) }.goto t (some (.createSetval1 id)))
      else some (s.die t .cantSETVAL)
  | .createSetval1 id =>
    match s.find id with
    | none => some (s.die t .cantSETVAL)
    | some S =>
      some ({ s with set := some (S.setval .counter BIGCOUNT) }.goto t (some (.createEnd id false)))
  | .createEnd id asleep =>
    s.semop t id op_endcreate asleep (.createEnd id true) (s.die t .cantEndCreate) .cantEndCreate
      fun s => (s.hold t id (· + 1)).goto t none
  | .openGet =>
    match s.set with
    | some S => some (s.goto t (some (.openOp S.semid false)))
    | none => some (s.goto t none)
  | .openOp id asleep =>
    s.semop t id op_open asleep (.openOp id true) (s.die t .cantOpen) .cantOpen
      fun s => (s.hold t id (· + 1)).goto t none
  | .closeOp id asleep =>
    s.semop t id op_close asleep (.closeOp id true) (s.die t .cantSemop) .cantSemop
      fun s => (s.hold t id (· - 1)).goto t (some (.closeGetval id))
  | .closeGetval id =>
    match s.find id with
    | none => some (s.die t .cantGETVAL)
    | some S =>
      if S.semval .counter > BIGCOUNT then some (s.die t .aboveBIGCOUNT)
      else if S.semval .counter = BIGCOUNT then some (s.goto t (some (.closeRm id)))
      else some (s.goto t (some (.closeUnlock id false)))
  | .closeRm id =>
    match s.find id with
    | none => some (s.die t .cantIPC_RMID)
    | some _ => some ({ s with set := none }.goto t none)
  | .closeUnlock id asleep =>
    s.semop t id op_unlock asleep (.closeUnlock id true) (s.die t .cantUnlock) .cantUnlock
      fun s => s.goto t none
  | .opOp id value asleep =>
    if toShort value = 0 then some (s.die t .zeroValue)
    else s.semop t id (op_op value) asleep (.opOp id value true) (s.die t .semOpError) .semOpError
      fun s => s.goto t none

/-- A process calls a function, makes its next system call, or ends. -/
inductive Act (τ : Type)
  | call (t : τ) (c : Call)
  | go (t : τ)
  | exit (t : τ)

/-- The steps. -/
def step : Step (Sys τ) (Act τ)
  | s, .call t c =>
    if s.died t = none ∧ (s.pc t).isNone then some (s.goto t (some c.entry)) else none
  | s, .go t => (s.pc t).bind (s.go t)
  | s, .exit t => if s.died t = none then some (s.die t .exited) else none

/-! ## What the processes have to observe -/

variable [Fintype τ]

/-- How often all processes together have a set. -/
def Sys.holders (s : Sys τ) (id : ℕ) : ℕ := ∑ t, s.held t id

/-- The set that a process comes to have with its next system call. -/
def Pc.entering : Pc → Option ℕ
  | .createEnd id _ => some id
  | .openOp id _ => some id
  | _ => none

/-- Whether `sem_open` gets the semaphore with the next system call. -/
def Pc.opening : Pc → Bool
  | .openOp _ _ => true
  | _ => false

/-- The initial values meet `P`, and are possible. A process closes what it has, gives back only
what it has taken, does not come to have the semaphore when `BIGCOUNT - 1` others have it, and
`sem_open` does not get the semaphore while another process is between the two ends of `sem_create`
or `sem_close`. -/
def Uses (P : ℤ → Prop) (s : Sys τ) : Act τ → Prop
  | .call _ (.sem_create initval) => P initval ∧ 0 ≤ initval ∧ initval ≤ SEMVMX
  | .call _ .sem_open => True
  | .call t (.sem_close id) => 0 < s.held t id
  | .call t (.sem_op id value) =>
    0 < s.held t id ∧ toShort value ≠ 0 ∧ ∀ S ∈ s.set, toShort value ≤ S.semadj t .value
  | .go t => (∀ id ∈ (s.pc t).bind Pc.entering, (s.holders id : ℤ) + 1 < BIGCOUNT) ∧
    ((s.pc t).any Pc.opening = true → ∀ S ∈ s.set, S.semval .lock = 0)
  | .exit _ => True

/-- Whether the processes observe this. -/
instance instDecidableUses (P : ℤ → Prop) [DecidablePred P] (s : Sys τ) :
    (a : Act τ) → Decidable (Uses P s a)
  | .call _ (.sem_create initval) =>
    inferInstanceAs (Decidable (P initval ∧ 0 ≤ initval ∧ initval ≤ SEMVMX))
  | .call _ .sem_open => .isTrue trivial
  | .call t (.sem_close id) => inferInstanceAs (Decidable (0 < s.held t id))
  | .call t (.sem_op id value) => inferInstanceAs (Decidable
      (0 < s.held t id ∧ toShort value ≠ 0 ∧ ∀ S ∈ s.set, toShort value ≤ S.semadj t .value))
  | .go t => inferInstanceAs (Decidable
      ((∀ id ∈ (s.pc t).bind Pc.entering, (s.holders id : ℤ) + 1 < BIGCOUNT) ∧
        ((s.pc t).any Pc.opening = true → ∀ S ∈ s.set, S.semval .lock = 0)))
  | .exit _ => .isTrue trivial

end System

end CxxPandora.Apue.Semaph
