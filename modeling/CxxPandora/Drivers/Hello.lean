import CxxPandora.Lib.Bytes
import CxxPandora.Lib.Machine
import CxxPandora.Lib.Words

/-!
# A character device with a buffer

The driver of `linux/drivers/helloworld`. `hello_write` takes the size that it is given for the
length of what it stores, however large it is, and `hello_read` copies that many bytes to the user,
however small the user's buffer is; neither looks at how many bytes were copied. The kernel gives
the driver no more of a write than `MAX_RW_COUNT` bytes. `device_run` is what the device does in the
runs in which the sizes fit and every copy is complete.
-/

namespace CxxPandora.Drivers

open Lib

/-! ## The model -/

/-- The size of `sdata`. -/
def sdataSize : ℕ := 64

/-- `MAX_RW_COUNT`, the most bytes that `write` hands to a driver: `INT_MAX` less a part of a
page. -/
def maxRwCount : ℕ := 0x7ffff000

/-- `sdata`. -/
structure Sdata where
  /-- The bytes. -/
  bytes : List UInt8
  /-- There are 64. -/
  length_eq : bytes.length = sdataSize

/-- The data of the module: `sdata` and `sdatalen`. -/
structure State where
  sdata : Sdata
  sdatalen : ℤ

/-- The module has just been loaded. -/
def State.start : State := ⟨⟨List.replicate sdataSize 0, List.length_replicate⟩, 0⟩

/-- `copy_from_user(sdata, ubuf, n)`, which copies `copied` bytes, or all, and stores zeros for the
rest. `none` when it stores past the end of `sdata` or reads past the end of the user's buffer. -/
def copyFromUser (sdata : Sdata) (ubuf : List UInt8) (n copied : ℕ) : Option Sdata :=
  let k := min copied n
  if h : n ≤ sdataSize ∧ k ≤ ubuf.length then
    some
      { bytes := overwrite sdata.bytes (ubuf.take k ++ List.replicate (n - k) 0)
        length_eq := by
          have hlen := sdata.length_eq
          rw [overwrite, List.length_append, List.length_drop, List.length_append,
            List.length_take_of_le h.2, List.length_replicate]
          omega }
  else none

/-- `copy_to_user(ubuf, sdata, n)`, which copies `copied` bytes, or all, to a buffer of `size`
bytes: the bytes that it stores there. `none` when it reads past the end of `sdata` or stores past
the end of the user's buffer. -/
def copyToUser (size : ℕ) (sdata : Sdata) (n copied : ℕ) : Option (List UInt8) :=
  let k := min copied n
  if k ≤ sdataSize ∧ k ≤ size then some (sdata.bytes.take k) else none

/-- A system call on the device, and how many bytes the driver's copy can copy. -/
inductive Call
  /-- `write` of a buffer. -/
  | write (ubuf : List UInt8) (copied : ℕ)
  /-- `read` into a buffer of `size` bytes. -/
  | read (size copied : ℕ)
  deriving DecidableEq, Repr

/-- What a call returns, and what it stores at the start of the user's buffer. -/
structure Answer where
  ret : ℤ
  stored : List UInt8
  deriving DecidableEq, Repr

/-- `hello_read`. The third argument of `copy_to_user` is an `unsigned long`. -/
def helloRead (s : State) (size copied : ℕ) : Option (Answer × State) :=
  (copyToUser size s.sdata (toSize s.sdatalen) copied).map fun bytes => (⟨s.sdatalen, bytes⟩, s)

/-- `hello_write` of `size` bytes of a buffer. The size becomes an `int`. -/
def helloWrite (s : State) (ubuf : List UInt8) (size copied : ℕ) : Option (Answer × State) :=
  let sdatalen := toInt size
  (copyFromUser s.sdata ubuf (toSize sdatalen) copied).map fun sdata =>
    (⟨sdatalen, []⟩, ⟨sdata, sdatalen⟩)

/-- A call; `none` when it touches a byte outside `sdata` or outside the user's buffer. -/
def call (s : State) : Call → Option (Answer × State)
  | .write ubuf copied => helloWrite s ubuf (min ubuf.length maxRwCount) copied
  | .read size copied => helloRead s size copied

/-- A call with its answer, as a step. -/
def step (s : State) (e : Call × Answer) : Option State :=
  (call s e.1).bind fun p => if p.1 = e.2 then some p.2 else none

/-- A step is a call that is answered so. -/
theorem step_eq_some {s s' : State} {e : Call × Answer} (h : step s e = some s') :
    call s e.1 = some (e.2, s') := by
  obtain ⟨⟨a, t⟩, hcall, hanswer⟩ := Option.bind_eq_some_iff.mp h
  split_ifs at hanswer with ha
  rw [hcall, ← ha, ← Option.some.inj hanswer]

/-! ## The data that is stored -/

/-- The data that the last write of some calls has stored: as much of its buffer as it returned. -/
def lastStored (es : List (Call × Answer)) : List UInt8 :=
  es.foldl
    (fun data e =>
      match e.1 with
      | .write ubuf _ => ubuf.take e.2.ret.toNat
      | .read _ _ => data)
    []

/-- After one more write. -/
theorem lastStored_write (es : List (Call × Answer)) (ubuf : List UInt8) (copied : ℕ) (a : Answer) :
    lastStored (es ++ [(.write ubuf copied, a)]) = ubuf.take a.ret.toNat := by
  rw [lastStored, List.foldl_append]
  rfl

/-- After one more read. -/
theorem lastStored_read (es : List (Call × Answer)) (size copied : ℕ) (a : Answer) :
    lastStored (es ++ [(.read size copied, a)]) = lastStored es := by
  rw [lastStored, List.foldl_append]
  rfl

/-- The device holds some data: it is the start of `sdata`, and `sdatalen` is its length. -/
structure Holds (data : List UInt8) (s : State) : Prop where
  sdatalen_eq : s.sdatalen = data.length
  length_le : data.length ≤ sdataSize
  take_eq : s.sdata.bytes.take data.length = data

/-- The call fits: a write is at most as long as `sdata`, the buffer of a read has room for what is
stored, and the copy can be complete. -/
def Call.Fits (s : State) : Call → Prop
  | .write ubuf copied => ubuf.length ≤ sdataSize ∧ ubuf.length ≤ copied
  | .read size copied => s.sdatalen ≤ size ∧ s.sdatalen ≤ copied

/-- Every step's call fits. -/
def Fitting (s : State) (e : Call × Answer) : Prop := e.1.Fits s

/-- A write that fits returns its size, and the device then holds its buffer. -/
theorem write_of_fits (s : State) {ubuf : List UInt8} {copied : ℕ}
    (h : Call.Fits s (.write ubuf copied)) :
    ∃ s', call s (.write ubuf copied) = some (⟨ubuf.length, []⟩, s') ∧ Holds ubuf s' := by
  obtain ⟨hsize, hcopied⟩ := h
  have hle : ubuf.length ≤ 64 := hsize
  have hcap : min ubuf.length maxRwCount = ubuf.length :=
    Nat.min_eq_left (hle.trans (by decide))
  have hint : toInt ubuf.length = ubuf.length :=
    toInt_of_nonneg (by omega) (by unfold intMax; omega)
  have hlt : ubuf.length < 2^64 := by omega
  have hmin : min copied ubuf.length = ubuf.length := Nat.min_eq_right hcopied
  rw [call, hcap, helloWrite, hint, toSize_natCast hlt, copyFromUser]
  simp only [hmin]
  rw [dif_pos ⟨hsize, le_rfl⟩]
  refine ⟨_, rfl, rfl, hsize, ?_⟩
  simp only [Nat.sub_self, List.replicate_zero, List.append_nil, List.take_length, overwrite]
  exact List.take_left

/-- A read that fits returns and stores the data that the device holds. -/
theorem helloRead_of_fits {s : State} {data : List UInt8} {size copied : ℕ} (hdata : Holds data s)
    (h : Call.Fits s (.read size copied)) :
    helloRead s size copied = some (⟨data.length, data⟩, s) := by
  obtain ⟨hsize, hcopied⟩ := h
  rw [hdata.sdatalen_eq] at hsize hcopied
  have hle := hdata.length_le
  have hlt : data.length < 2^64 := by
    unfold sdataSize at hle
    omega
  have hmin : min copied data.length = data.length := Nat.min_eq_right (by omega)
  rw [helloRead, hdata.sdatalen_eq, toSize_natCast hlt, copyToUser]
  simp only [hmin]
  rw [if_pos ⟨hle, by omega⟩, hdata.take_eq]
  rfl

/-! ## The runs that fit -/

/-- In every run whose calls fit, the device holds the data of the last write. -/
theorem holds_lastStored {es : List (Call × Answer)} {s : State}
    (h : Run step Fitting State.start es s) : Holds (lastStored es) s := by
  refine h.history (I := fun es s => Holds (lastStored es) s) ⟨rfl, Nat.zero_le _, rfl⟩ ?_
  rintro es s ⟨c, a⟩ s' hdata hfits hstep
  have hcall := step_eq_some hstep
  cases c with
  | write ubuf copied =>
    obtain ⟨t, hwrite, hheld⟩ := write_of_fits s hfits
    obtain ⟨ha, ht⟩ := Prod.mk.inj (Option.some.inj (hcall.symm.trans hwrite))
    obtain rfl : a = _ := ha
    rw [lastStored_write, ht, Int.toNat_natCast, List.take_length]
    exact hheld
  | read size copied =>
    have hread := helloRead_of_fits hdata hfits
    obtain ⟨-, hs⟩ := Prod.mk.inj (Option.some.inj (hcall.symm.trans hread))
    rw [lastStored_read, hs]
    exact hdata

/-- The device behaves after some calls: `sdatalen` is in range, and every call that fits touches
nothing outside the two buffers; a read returns the number of bytes that it stores in the user's
buffer, which are the first of the data of the last write, as many as the user asks for and the
device has. -/
structure Behaves (es : List (Call × Answer)) (s : State) : Prop where
  nonneg : 0 ≤ s.sdatalen
  le : s.sdatalen ≤ sdataSize
  isSome : ∀ c : Call, c.Fits s → (call s c).isSome
  read : ∀ size copied a s', Call.Fits s (.read size copied) →
    call s (.read size copied) = some (a, s') →
      a.stored = (lastStored es).take (min size s.sdatalen.toNat) ∧ a.ret = a.stored.length

/-- In every run whose calls fit, the device behaves. -/
theorem device_run {es : List (Call × Answer)} {s : State}
    (h : Run step Fitting State.start es s) : Behaves es s := by
  have hdata := holds_lastStored h
  have heq := hdata.sdatalen_eq
  have hle := hdata.length_le
  refine ⟨by omega, by omega, ?_, ?_⟩
  · rintro (⟨ubuf, copied⟩ | ⟨size, copied⟩) hfits
    · obtain ⟨t, hwrite, -⟩ := write_of_fits s hfits
      rw [hwrite]
      rfl
    · rw [call, helloRead_of_fits hdata hfits]
      rfl
  · intro size copied a s' hfits hcall
    obtain ⟨ha, -⟩ :=
      Prod.mk.inj (Option.some.inj (hcall.symm.trans (helloRead_of_fits hdata hfits)))
    have hsize := hfits.1
    have hmin : min size s.sdatalen.toNat = (lastStored es).length := by omega
    rw [ha, hmin, List.take_length]
    exact ⟨rfl, rfl⟩

/-- Whether a call fits can be computed. -/
instance (s : State) (e : Call × Answer) : Decidable (Fitting s e) :=
  match e with
  | (.write _ _, _) => inferInstanceAs (Decidable (_ ∧ _))
  | (.read _ _, _) => inferInstanceAs (Decidable (_ ∧ _))

/-- A write of three bytes, and a read of them into a buffer of ten. -/
theorem device_run_three : Behaves
    [(.write [1, 2, 3] 3, ⟨3, []⟩), (.read 10 10, ⟨3, [1, 2, 3]⟩)]
    ⟨⟨[1, 2, 3] ++ List.replicate 61 0, rfl⟩, 3⟩ :=
  device_run (Run.of_exec_restrict rfl)

/-- Not every call of every run keeps to the two buffers: a write of 65 bytes stores past the end of
`sdata`. -/
theorem device_overruns :
    ¬∀ es s, Run step anyStep State.start es s → ∀ c : Call, (call s c).isSome := by
  intro h
  have hwrite := h [] State.start .nil (.write (List.replicate 65 7) 65)
  exact absurd hwrite (by decide)

end CxxPandora.Drivers
