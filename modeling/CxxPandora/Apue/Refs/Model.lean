import CxxPandora.Lib.Machine
import CxxPandora.Lib.Words
import Mathlib.Algebra.BigOperators.Group.Finset.Defs
import Mathlib.Data.Finset.Card
import Mathlib.Data.Finset.Erase
import Mathlib.Data.Fintype.Basic
import Mathlib.Logic.Function.Basic

/-!
# Reference counts under locks

The two tables of objects with reference counts of `linux/apue.3e.exs/apue3/apue.3e/threads`, that
of `mutex2.c`, where a lock in each object protects its count, and that of `mutex3.c`, where the
lock of the table protects the counts. Any number of threads are in the functions at one time. A
step of a thread goes from one operation on a lock to the next; what is done between two of them is
part of the step before. It is blocked when it needs a lock that is taken, and wrong when it looks
at an object that is not allocated, goes through a null pointer, releases a lock that the thread
does not have, destroys one that is taken, or lets a count, an `int`, overflow. The operations on
the locks do not fail, and what `malloc` returns, and whether the lock of an object can be set up,
is part of the label.

The callers keep to two rules (`Uses`): a thread only uses references that it has, and calls are
made while the references to an object, with one for each thread in a function, are fewer than an
`int` can count.
-/

namespace CxxPandora.Apue.Refs

open Lib

/-- The number of hash chains. -/
def NHASH : ℕ := 29

/-- `HASH`: the `int` is converted to an `unsigned long`. -/
def HASH (id : ℤ) : Fin NHASH := ⟨toSize id % NHASH, Nat.mod_lt _ (by decide)⟩

/-- The memory: the objects at the addresses `ι`, and the locks, which threads `τ` have. -/
structure Mem (ι τ : Type) where
  /-- The objects that `malloc` has returned and that have not been freed. -/
  allocated : Finset ι
  fh : Fin NHASH → Option ι
  hashlock : Option τ
  f_count : ι → ℤ
  f_lock : ι → Option τ
  f_id : ι → ℤ
  f_next : ι → Option ι

/-- What a step comes to: it cannot be taken now, it goes wrong, or it has a result. -/
inductive Outcome (α : Type)
  | blocked
  | wrong
  | ok (a : α)

/-- One part of a step after another. -/
def Outcome.bind {α β : Type} : Outcome α → (α → Outcome β) → Outcome β
  | .blocked, _ => .blocked
  | .wrong, _ => .wrong
  | .ok a, f => f a

instance instMonadOutcome : Monad Outcome where
  pure := .ok
  bind := Outcome.bind

variable {ι τ : Type} [DecidableEq ι] [DecidableEq τ]

namespace Mem

/-! ## The locks -/

/-- `pthread_mutex_lock(&hashlock)`. -/
def lockHash (t : τ) (m : Mem ι τ) : Outcome (Mem ι τ) :=
  if m.hashlock = none then .ok { m with hashlock := some t } else .blocked

/-- `pthread_mutex_unlock(&hashlock)`. -/
def unlockHash (t : τ) (m : Mem ι τ) : Outcome (Mem ι τ) :=
  if m.hashlock = some t then .ok { m with hashlock := none } else .wrong

/-- `pthread_mutex_lock(&fp->f_lock)`. -/
def lockFoo (t : τ) (fp : ι) (m : Mem ι τ) : Outcome (Mem ι τ) :=
  if fp ∉ m.allocated then .wrong
  else if m.f_lock fp = none then .ok { m with f_lock := Function.update m.f_lock fp (some t) }
  else .blocked

/-- `pthread_mutex_unlock(&fp->f_lock)`. -/
def unlockFoo (t : τ) (fp : ι) (m : Mem ι τ) : Outcome (Mem ι τ) :=
  if fp ∈ m.allocated ∧ m.f_lock fp = some t then
    .ok { m with f_lock := Function.update m.f_lock fp none }
  else .wrong

/-! ## The objects -/

/-- `malloc`, and what `foo_alloc` does before it takes a lock. -/
def create (id : ℤ) (fp : ι) (m : Mem ι τ) : Mem ι τ := { m with
  allocated := insert fp m.allocated
  f_count := Function.update m.f_count fp 1
  f_id := Function.update m.f_id fp id
  f_lock := Function.update m.f_lock fp none }

/-- `fp->f_count`. -/
def count (fp : ι) (m : Mem ι τ) : Outcome ℤ :=
  if fp ∈ m.allocated then .ok (m.f_count fp) else .wrong

/-- `fp->f_count += d`, in the range of an `int`. -/
def addCount (fp : ι) (d : ℤ) (m : Mem ι τ) : Outcome (Mem ι τ) :=
  if fp ∈ m.allocated ∧ intMin ≤ m.f_count fp + d ∧ m.f_count fp + d ≤ intMax then
    .ok { m with f_count := Function.update m.f_count fp (m.f_count fp + d) }
  else .wrong

/-- The object becomes the first of its chain. -/
def push (idx : Fin NHASH) (fp : ι) (m : Mem ι τ) : Outcome (Mem ι τ) :=
  if fp ∈ m.allocated then
    .ok { m with
      f_next := Function.update m.f_next fp (m.fh idx)
      fh := Function.update m.fh idx (some fp) }
  else .wrong

/-- The loop of `foo_find`, over at most `n` objects. -/
def findLoop (m : Mem ι τ) (id : ℤ) : ℕ → Option ι → Outcome (Option ι)
  | _, none => .ok none
  | 0, some _ => .wrong
  | n + 1, some fp =>
    if fp ∉ m.allocated then .wrong
    else if m.f_id fp = id then .ok (some fp)
    else findLoop m id n (m.f_next fp)

/-- The search of `foo_find`. -/
def find (id : ℤ) (m : Mem ι τ) : Outcome (Option ι) :=
  m.findLoop id m.allocated.card (m.fh (HASH id))

/-- The loop of `foo_rele`, over at most `n` objects: the object in front of `fp`. -/
def walk (m : Mem ι τ) (fp : ι) : ℕ → Option ι → Outcome ι
  | _, none => .wrong
  | 0, some _ => .wrong
  | n + 1, some tfp =>
    if tfp ∉ m.allocated then .wrong
    else if m.f_next tfp = some fp then .ok tfp
    else walk m fp n (m.f_next tfp)

/-- The object is taken out of its chain. -/
def remove (fp : ι) (m : Mem ι τ) : Outcome (Mem ι τ) :=
  if fp ∉ m.allocated then .wrong
  else
    let idx := HASH (m.f_id fp)
    if m.fh idx = some fp then .ok { m with fh := Function.update m.fh idx (m.f_next fp) }
    else do
      let tfp ← m.walk fp m.allocated.card (m.fh idx)
      return { m with f_next := Function.update m.f_next tfp (m.f_next fp) }

/-- `pthread_mutex_destroy` and `free`. -/
def free (fp : ι) (m : Mem ι τ) : Outcome (Mem ι τ) :=
  if fp ∈ m.allocated ∧ m.f_lock fp = none then .ok { m with allocated := m.allocated.erase fp }
  else .wrong

end Mem

/-! ## Threads -/

/-- Where a thread goes in a step: on to the next operation on a lock, or out of the function, with
a pointer that is a new reference or with none. -/
inductive Next (ι Pc : Type)
  | goto (pc : Pc)
  | ret (fp : Option ι)

/-- The functions: where each of them starts, and the step from each place. -/
structure Impl (ι τ Pc : Type) where
  foo_alloc : Fin NHASH → ι → Pc
  foo_hold : ι → Pc
  foo_find : ℤ → Pc
  foo_rele : ι → Pc
  next : τ → Mem ι τ → Pc → Outcome (Mem ι τ × Next ι Pc)

/-- The system. -/
structure Sys (ι τ Pc : Type) where
  mem : Mem ι τ
  /-- Where each thread is in a function, or `none` when it is in none. -/
  pc : τ → Option Pc
  /-- How many references each thread has been given and has not given up. -/
  refs : τ → ι → ℕ

/-- What a thread does: it calls a function, it passes a reference to another thread, or it goes on.
`foo_alloc` comes with the result of `malloc` and whether `pthread_mutex_init` succeeds. -/
inductive Act (ι τ : Type)
  | foo_alloc (id : ℤ) (fp : Option ι) (init : Bool)
  | foo_hold (fp : ι)
  | foo_find (id : ℤ)
  | foo_rele (fp : ι)
  | pass (fp : ι) (t : τ)
  | go

/-- A reference more. -/
def addRef (refs : τ → ι → ℕ) (t : τ) (fp : ι) : τ → ι → ℕ :=
  Function.update refs t (Function.update (refs t) fp (refs t fp + 1))

/-- A reference less. -/
def dropRef (refs : τ → ι → ℕ) (t : τ) (fp : ι) : τ → ι → ℕ :=
  Function.update refs t (Function.update (refs t) fp (refs t fp - 1))

section System

variable {Pc : Type}

/-- A thread calls a function. -/
def Sys.call (s : Sys ι τ Pc) (t : τ) (pc : Pc) : Sys ι τ Pc :=
  { s with pc := Function.update s.pc t (some pc) }

/-- A thread goes on, or returns. -/
def Sys.goOn (s : Sys ι τ Pc) (t : τ) (m : Mem ι τ) : Next ι Pc → Sys ι τ Pc
  | .goto pc => { s with mem := m, pc := Function.update s.pc t (some pc) }
  | .ret none => { s with mem := m, pc := Function.update s.pc t none }
  | .ret (some fp) =>
    { mem := m, pc := Function.update s.pc t none, refs := addRef s.refs t fp }

/-- What a thread that is in none of the functions does. -/
def Impl.start (P : Impl ι τ Pc) (s : Sys ι τ Pc) (t : τ) : Act ι τ → Outcome (Sys ι τ Pc)
  | .foo_alloc id (some fp) true =>
    if fp ∈ s.mem.allocated then .blocked
    else .ok ({ s with mem := s.mem.create id fp }.call t (P.foo_alloc (HASH id) fp))
  | .foo_alloc _ _ _ => .ok s
  | .foo_hold fp => .ok (s.call t (P.foo_hold fp))
  | .foo_find id => .ok (s.call t (P.foo_find id))
  | .foo_rele fp => .ok ({ s with refs := dropRef s.refs t fp }.call t (P.foo_rele fp))
  | .pass fp t' => .ok { s with refs := addRef (dropRef s.refs t fp) t' fp }
  | .go => .blocked

/-- A step of a thread. -/
def Impl.act (P : Impl ι τ Pc) (s : Sys ι τ Pc) (t : τ) (a : Act ι τ) : Outcome (Sys ι τ Pc) :=
  match s.pc t, a with
  | none, a => P.start s t a
  | some pc, .go => do
    let (m, n) ← P.next t s.mem pc
    return s.goOn t m n
  | some _, _ => .blocked

/-- The steps of the system; `none` is the state in which it has gone wrong. -/
def Impl.step (P : Impl ι τ Pc) : Step (Option (Sys ι τ Pc)) (τ × Act ι τ) := fun s e =>
  match s with
  | none => none
  | some s =>
    match P.act s e.1 e.2 with
    | .blocked => none
    | .wrong => some none
    | .ok s' => some (some s')

/-- How many threads are in the functions. -/
def Sys.inside [Fintype τ] (s : Sys ι τ Pc) : ℕ := ∑ t, (s.pc t).isSome.toNat

/-- The references to an object, with one more for each thread in a function. -/
def Sys.load [Fintype τ] (s : Sys ι τ Pc) (fp : ι) : ℕ :=
  ∑ t, (s.refs t fp + (s.pc t).isSome.toNat)

/-- An `int` can count the references, also when another thread comes in. -/
def Sys.HasRoom [Fintype τ] (s : Sys ι τ Pc) : Prop :=
  s.inside < intMax ∧ ∀ fp ∈ s.mem.allocated, s.load fp < intMax

/-- A thread only uses references that it has, and calls a function while there is room. -/
def Uses [Fintype τ] : Option (Sys ι τ Pc) → τ × Act ι τ → Prop
  | some s, (_, .foo_alloc _ _ _) => s.HasRoom
  | some s, (t, .foo_hold fp) => 0 < s.refs t fp ∧ s.HasRoom
  | some s, (_, .foo_find _) => s.HasRoom
  | some s, (t, .foo_rele fp) => 0 < s.refs t fp ∧ s.HasRoom
  | some s, (t, .pass fp _) => 0 < s.refs t fp
  | _, _ => True

/-- The table without objects. -/
def Sys.init : Sys ι τ Pc where
  mem := {
    allocated := ∅
    fh := fun _ => none
    hashlock := none
    f_count := fun _ => 0
    f_lock := fun _ => none
    f_id := fun _ => 0
    f_next := fun _ => none }
  pc := fun _ => none
  refs := fun _ _ => 0

end System

/-! ## `mutex2.c` -/

namespace Mutex2

/-- The operations on locks that come next. -/
inductive Pc (ι : Type)
  | allocHash (idx : Fin NHASH) (fp : ι)
  | allocLock (fp : ι)
  | allocUnlockHash (fp : ι)
  | allocUnlock (fp : ι)
  | holdLock (fp : ι)
  | holdUnlock (fp : ι)
  | findHash (id : ℤ)
  | findLock (fp : ι)
  | findUnlock (fp : ι)
  | findUnlockHash (fp : Option ι)
  | releLock (fp : ι)
  | releUnlockLast (fp : ι)
  | releHash (fp : ι)
  | releLockAgain (fp : ι)
  | releUnlockAgain (fp : ι)
  | releUnlockHash
  | releUnlockHashLast (fp : ι)
  | releUnlockRemoved (fp : ι)
  | releFree (fp : ι)
  | releUnlock (fp : ι)

/-- The step from each place. -/
def next (t : τ) (m : Mem ι τ) : Pc ι → Outcome (Mem ι τ × Next ι (Pc ι))
  | .allocHash idx fp => do
    let m ← m.lockHash t
    let m ← m.push idx fp
    return (m, .goto (.allocLock fp))
  | .allocLock fp => do
    let m ← m.lockFoo t fp
    return (m, .goto (.allocUnlockHash fp))
  | .allocUnlockHash fp => do
    let m ← m.unlockHash t
    return (m, .goto (.allocUnlock fp))
  | .allocUnlock fp => do
    let m ← m.unlockFoo t fp
    return (m, .ret (some fp))
  | .holdLock fp => do
    let m ← m.lockFoo t fp
    let m ← m.addCount fp 1
    return (m, .goto (.holdUnlock fp))
  | .holdUnlock fp => do
    let m ← m.unlockFoo t fp
    return (m, .ret (some fp))
  | .findHash id => do
    let m ← m.lockHash t
    match ← m.find id with
    | some fp => return (m, .goto (.findLock fp))
    | none => return (m, .goto (.findUnlockHash none))
  | .findLock fp => do
    let m ← m.lockFoo t fp
    let m ← m.addCount fp 1
    return (m, .goto (.findUnlock fp))
  | .findUnlock fp => do
    let m ← m.unlockFoo t fp
    return (m, .goto (.findUnlockHash (some fp)))
  | .findUnlockHash fp => do
    let m ← m.unlockHash t
    return (m, .ret fp)
  | .releLock fp => do
    let m ← m.lockFoo t fp
    if (← m.count fp) = 1 then return (m, .goto (.releUnlockLast fp))
    else
      let m ← m.addCount fp (-1)
      return (m, .goto (.releUnlock fp))
  | .releUnlockLast fp => do
    let m ← m.unlockFoo t fp
    return (m, .goto (.releHash fp))
  | .releHash fp => do
    let m ← m.lockHash t
    return (m, .goto (.releLockAgain fp))
  | .releLockAgain fp => do
    let m ← m.lockFoo t fp
    if (← m.count fp) ≠ 1 then
      let m ← m.addCount fp (-1)
      return (m, .goto (.releUnlockAgain fp))
    else
      let m ← m.remove fp
      return (m, .goto (.releUnlockHashLast fp))
  | .releUnlockAgain fp => do
    let m ← m.unlockFoo t fp
    return (m, .goto .releUnlockHash)
  | .releUnlockHash => do
    let m ← m.unlockHash t
    return (m, .ret none)
  | .releUnlockHashLast fp => do
    let m ← m.unlockHash t
    return (m, .goto (.releUnlockRemoved fp))
  | .releUnlockRemoved fp => do
    let m ← m.unlockFoo t fp
    return (m, .goto (.releFree fp))
  | .releFree fp => do
    let m ← m.free fp
    return (m, .ret none)
  | .releUnlock fp => do
    let m ← m.unlockFoo t fp
    return (m, .ret none)

/-- The functions of `mutex2.c`. -/
def impl : Impl ι τ (Pc ι) where
  foo_alloc := .allocHash
  foo_hold := .holdLock
  foo_find := .findHash
  foo_rele := .releLock
  next := next

end Mutex2

/-! ## `mutex3.c` -/

namespace Mutex3

/-- The operations on locks that come next. -/
inductive Pc (ι : Type)
  | allocHash (idx : Fin NHASH) (fp : ι)
  | allocLock (fp : ι)
  | allocUnlockHash (fp : ι)
  | allocUnlock (fp : ι)
  | holdHash (fp : ι)
  | findHash (id : ℤ)
  | unlockHash (fp : Option ι)
  | releHash (fp : ι)
  | releUnlockHashLast (fp : ι)
  | releFree (fp : ι)

/-- The step from each place. -/
def next (t : τ) (m : Mem ι τ) : Pc ι → Outcome (Mem ι τ × Next ι (Pc ι))
  | .allocHash idx fp => do
    let m ← m.lockHash t
    let m ← m.push idx fp
    return (m, .goto (.allocLock fp))
  | .allocLock fp => do
    let m ← m.lockFoo t fp
    return (m, .goto (.allocUnlockHash fp))
  | .allocUnlockHash fp => do
    let m ← m.unlockHash t
    return (m, .goto (.allocUnlock fp))
  | .allocUnlock fp => do
    let m ← m.unlockFoo t fp
    return (m, .ret (some fp))
  | .holdHash fp => do
    let m ← m.lockHash t
    let m ← m.addCount fp 1
    return (m, .goto (.unlockHash (some fp)))
  | .findHash id => do
    let m ← m.lockHash t
    match ← m.find id with
    | some fp =>
      let m ← m.addCount fp 1
      return (m, .goto (.unlockHash (some fp)))
    | none => return (m, .goto (.unlockHash none))
  | .unlockHash fp => do
    let m ← m.unlockHash t
    return (m, .ret fp)
  | .releHash fp => do
    let m ← m.lockHash t
    let m ← m.addCount fp (-1)
    if (← m.count fp) = 0 then
      let m ← m.remove fp
      return (m, .goto (.releUnlockHashLast fp))
    else return (m, .goto (.unlockHash none))
  | .releUnlockHashLast fp => do
    let m ← m.unlockHash t
    return (m, .goto (.releFree fp))
  | .releFree fp => do
    let m ← m.free fp
    return (m, .ret none)

/-- The functions of `mutex3.c`. -/
def impl : Impl ι τ (Pc ι) where
  foo_alloc := .allocHash
  foo_hold := .holdHash
  foo_find := .findHash
  foo_rele := .releHash
  next := next

end Mutex3

end CxxPandora.Apue.Refs
