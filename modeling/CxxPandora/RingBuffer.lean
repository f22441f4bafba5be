import CxxPandora.Lib.BoundedFifo
import CxxPandora.Lib.Machine
import CxxPandora.Lib.Words

/-!
# The circular buffer refines a bounded queue

`circular_buffer<T>` of `dsaax/ringbuffer/main.cpp`. Its methods lock `mutex_`, so a call is one
step. `head_ == tail_` holds of an empty buffer and of a full one, and `full_` tells them apart.
`Represents` relates a buffer to the queue of its items, `call_simulates` shows that every method
keeps it, and `calls_eq` that a buffer and a queue answer every sequence of calls alike. An access
to `buf_` outside its `max_size_` elements is `none`, so that the accesses of such a sequence are
all inside.
-/

namespace CxxPandora.RingBuffer

open Lib

/-- The members of `circular_buffer<T>`, without the mutex. -/
structure CircularBuffer (T : Type*) where
  buf_ : List T
  head_ : ℕ
  tail_ : ℕ
  max_size_ : ℕ
  full_ : Bool

namespace CircularBuffer

variable {T : Type*}

/-- The constructor: `new T[size]` has `size` elements, whatever they are. -/
def new (size : ℕ) (elements : Fin size → T) : CircularBuffer T where
  buf_ := List.ofFn elements
  head_ := 0
  tail_ := 0
  max_size_ := size
  full_ := false

/-- `empty`: not full, and head and tail equal. -/
def empty (b : CircularBuffer T) : Bool := !b.full_ && b.head_ == b.tail_

/-- `full`. -/
def full (b : CircularBuffer T) : Bool := b.full_

/-- `reset`. -/
def reset (b : CircularBuffer T) : CircularBuffer T := { b with head_ := b.tail_, full_ := false }

/-- `size`, in `size_t` arithmetic. -/
def size (b : CircularBuffer T) : ℕ :=
  if b.full_ then b.max_size_
  else if b.head_ ≥ b.tail_ then sizeSub b.head_ b.tail_
  else sizeSub (sizeAdd b.max_size_ b.head_) b.tail_

/-- `(index + 1) % max_size_`, in `size_t` arithmetic. -/
def next (b : CircularBuffer T) (index : ℕ) : ℕ := sizeAdd index 1 % b.max_size_

/-- `put`; `none` when `head_` is not an index of `buf_`. -/
def put (b : CircularBuffer T) (item : T) : Option (CircularBuffer T) :=
  if b.head_ < b.buf_.length then
    -- A put to a full buffer discards the oldest item.
    let tail_ := if b.full_ then b.next b.tail_ else b.tail_
    let head_ := b.next b.head_
    some { b with
      buf_ := b.buf_.set b.head_ item, tail_ := tail_, head_ := head_, full_ := head_ == tail_ }
  else none

/-- `get`, where `default` is `T()`; `none` when `tail_` is not an index of `buf_`. -/
def get [Inhabited T] (b : CircularBuffer T) : Option (T × CircularBuffer T) :=
  if b.empty then some (default, b)
  else do
    let val ← b.buf_[b.tail_]?
    some (val, { b with full_ := false, tail_ := b.next b.tail_ })

end CircularBuffer

/-! ## Sequences of calls -/

variable {T : Type*} {N : ℕ}

/-- A call of one of the methods that change the buffer. -/
inductive Call (T : Type*)
  | put (item : T)
  | get
  | reset

/-- What a caller sees of one call: the value returned by `get`, and the answers of `size`, `empty`,
and `full` after the call. -/
structure Answer (T : Type*) where
  value : Option T
  size : ℕ
  empty : Bool
  full : Bool

/-- The answers of the buffer after a call that returned `value`. -/
def CircularBuffer.answer (b : CircularBuffer T) (value : Option T) : Answer T :=
  ⟨value, b.size, b.empty, b.full⟩

/-- A call on the buffer. -/
def CircularBuffer.call [Inhabited T] : Server (CircularBuffer T) (Call T) (Answer T)
  | b, .put item => (b.put item).map fun b' => (b'.answer none, b')
  | b, .get => b.get.map fun p => (p.2.answer (some p.1), p.2)
  | b, .reset => some (b.reset.answer none, b.reset)

/-- The answers of the queue after a call that returned `value`. -/
def fifoAnswer (q : BoundedFifo T N) (value : Option T) : Answer T :=
  ⟨value, q.items.length, q.items.isEmpty, q.items.length == N⟩

/-- A call on the queue: `put` appends and discards the oldest of `N` items, `get` removes and
returns the oldest, or returns `T()` when there is none, and `reset` empties the queue. -/
def fifoCall [Inhabited T] : Server (BoundedFifo T N) (Call T) (Answer T)
  | q, .put item => some (fifoAnswer (q.put item) none, q.put item)
  | q, .get => some (fifoAnswer q.drop (some (q.items.headD default)), q.drop)
  | _, .reset => some (fifoAnswer (N := N) BoundedFifo.empty none, BoundedFifo.empty)

/-! ## The abstraction relation -/

/-- The buffer holds the items of the queue: they are laid out in `buf_` from `tail_` on, `head_` is
the index behind the last of them, and `full_` says that there are `N`. -/
structure Represents (b : CircularBuffer T) (q : BoundedFifo T N) : Prop where
  max_size : b.max_size_ = N
  length : b.buf_.length = N
  laid : Laid b.buf_ b.tail_ q.items
  head : b.head_ = (b.tail_ + q.items.length) % N
  full : b.full_ = true ↔ q.items.length = N

namespace Represents

variable {b : CircularBuffer T} {q : BoundedFifo T N}

/-- The tail is an index of the buffer. -/
theorem tail_lt (h : Represents b q) : b.tail_ < N := by
  have ht := h.laid.first_lt
  rwa [h.length] at ht

/-- The head is an index of the buffer. -/
theorem head_lt (h : Represents b q) : b.head_ < N := by
  have ht := h.tail_lt
  rw [h.head]
  exact Nat.mod_lt _ (by omega)

/-- The head as the tail and the number of items determine it, without a remainder. -/
theorem head_eq (h : Represents b q) : b.head_ =
    if b.tail_ + q.items.length < N then b.tail_ + q.items.length
    else b.tail_ + q.items.length - N := by
  have ht := h.tail_lt
  have hlen := q.length_le
  rw [h.head, mod_eq_ite (by omega)]

/-- The next index is the remainder modulo `N`, since no index reaches `2^64`. -/
theorem next_eq (h : Represents b q) (hN : N < 2^64) {i : ℕ} (hi : i < N) :
    b.next i = (i + 1) % N := by
  rw [CircularBuffer.next, sizeAdd_eq (by omega), h.max_size]

/-- `full` says whether the queue holds `N` items. -/
theorem full_eq (h : Represents b q) : b.full = (q.items.length == N) := by
  rw [CircularBuffer.full, Bool.eq_iff_iff, h.full, beq_iff_eq]

/-- `empty` says whether the queue holds no item. -/
theorem empty_eq (h : Represents b q) : b.empty = q.items.isEmpty := by
  have ht := h.tail_lt
  have hlen := q.length_le
  have hhead := h.head_eq
  have hfull := h.full
  rw [Bool.eq_iff_iff, List.isEmpty_iff, ← List.length_eq_zero_iff]
  simp only [CircularBuffer.empty, Bool.and_eq_true, Bool.not_eq_true', beq_iff_eq,
    ← Bool.not_eq_true, hfull]
  split_ifs at hhead <;> omega

/-- `size` is the number of items, although the sum in it may wrap. -/
theorem size_eq (h : Represents b q) (hN : N < 2^64) : b.size = q.items.length := by
  have ht := h.tail_lt
  have hlen := q.length_le
  have hhead := h.head_eq
  have hfull := h.full
  unfold CircularBuffer.size
  rw [h.max_size]
  -- A full buffer has `head_ = tail_`; else the indices determine the number of items.
  by_cases hf : b.full_ = true
  · rw [if_pos hf]
    exact (hfull.mp hf).symm
  · have hne : q.items.length ≠ N := fun hlN => hf (hfull.mpr hlN)
    rw [if_neg hf]
    by_cases hge : b.head_ ≥ b.tail_
    · rw [if_pos hge, sizeSub_eq hge (by have := h.head_lt; omega)]
      split_ifs at hhead <;> omega
    · rw [if_neg hge, sizeSub_sizeAdd (by omega) (by omega)]
      split_ifs at hhead <;> omega

/-- A buffer and the queue that it represents give the same answers. -/
theorem answer_eq (h : Represents b q) (hN : N < 2^64) (value : Option T) :
    b.answer value = fifoAnswer q value := by
  rw [CircularBuffer.answer, fifoAnswer, h.size_eq hN, h.empty_eq, h.full_eq]

end Represents

/-! ## The methods keep the relation -/

section Methods

variable {b : CircularBuffer T} {q : BoundedFifo T N}

/-- The constructor's buffer represents the empty queue. -/
theorem new_represents (hN : 1 ≤ N) (elements : Fin N → T) :
    Represents (CircularBuffer.new N elements) (BoundedFifo.empty : BoundedFifo T N) where
  max_size := rfl
  length := List.length_ofFn
  laid := Laid.nil (by rw [CircularBuffer.new, List.length_ofFn]; exact hN)
  head := (Nat.zero_mod N).symm
  full := by simp [CircularBuffer.new, BoundedFifo.empty]; omega

/-- `reset` leaves a buffer that represents the empty queue. -/
theorem reset_represents (h : Represents b q) :
    Represents b.reset (BoundedFifo.empty : BoundedFifo T N) where
  max_size := h.max_size
  length := h.length
  laid := Laid.nil h.laid.first_lt
  head := (Nat.mod_eq_of_lt h.tail_lt).symm
  full := by have := h.tail_lt; simp [CircularBuffer.reset, BoundedFifo.empty]; omega

/-- `put` writes inside the buffer, and leaves one that represents the queue after the put. -/
theorem put_represents (h : Represents b q) (hN : N < 2^64) (item : T) :
    ∃ b', b.put item = some b' ∧ Represents b' (q.put item) := by
  have htail := h.tail_lt
  have hhead := h.head_lt
  refine ⟨_, if_pos (by rw [h.length]; exact hhead), ?_⟩
  rw [h.next_eq hN hhead, h.next_eq hN htail]
  by_cases hfull : q.items.length = N
  · -- The buffer is full: `head_` is `tail_`, the oldest item is overwritten, and both advance.
    have hflag : b.full_ = true := h.full.mpr hfull
    have hht : b.head_ = b.tail_ := by
      rw [h.head, hfull, Nat.add_mod_right, Nat.mod_eq_of_lt htail]
    have hlaid := h.laid.overwrite item (by rw [hfull, h.length])
    have hlen : (q.put item).items.length = N := by
      rw [BoundedFifo.items_put_of_eq hfull, List.length_tail, List.length_append,
        List.length_singleton, Nat.add_sub_cancel, hfull]
    rw [h.length] at hlaid
    simp only [hflag, hht, if_true]
    refine ⟨h.max_size, by rw [List.length_set, h.length], ?_, ?_, ?_⟩
    · rw [BoundedFifo.items_put_of_eq hfull]
      exact hlaid
    · rw [hlen, Nat.add_mod_right, Nat.mod_mod]
    · simp [hlen]
  · -- A cell is free, the one at `head_`.
    have hlt : q.items.length < N := lt_of_le_of_ne q.length_le hfull
    have hflag : ¬ b.full_ = true := fun hf => hfull (h.full.mp hf)
    have hlaid := h.laid.push item (by rw [h.length]; exact hlt)
    have hlen : (q.put item).items.length = q.items.length + 1 := by
      rw [BoundedFifo.items_put_of_lt hlt, List.length_append, List.length_singleton]
    rw [h.length, ← h.head] at hlaid
    have hnew : (b.head_ + 1) % N = (b.tail_ + (q.items.length + 1)) % N := by
      rw [h.head, Nat.mod_add_mod, Nat.add_assoc]
    simp only [if_neg hflag]
    refine ⟨h.max_size, by rw [List.length_set, h.length], ?_, ?_, ?_⟩
    · rw [BoundedFifo.items_put_of_lt hlt]
      exact hlaid
    · rw [hlen, hnew]
    · rw [hlen, hnew, beq_iff_eq, mod_eq_ite (by omega)]
      split_ifs <;> omega

/-- `get` on an empty buffer returns `T()` and changes nothing; on any other it reads inside the
buffer, returns the oldest item, and leaves a buffer that represents the rest. -/
theorem get_represents [Inhabited T] (h : Represents b q) (hN : N < 2^64) :
    ∃ b', b.get = some (q.items.headD default, b') ∧ Represents b' q.drop := by
  -- By the cases of the queue, whose oldest item is the one at `tail_`.
  have hempty := h.empty_eq
  obtain ⟨items, hle⟩ := q
  cases items with
  | nil =>
    refine ⟨b, ?_, h⟩
    rw [CircularBuffer.get, if_pos (by rw [hempty]; rfl)]
    rfl
  | cons x xs =>
    obtain ⟨hx, hlaid⟩ := h.laid.pop
    rw [h.length] at hlaid
    refine ⟨{ b with full_ := false, tail_ := b.next b.tail_ }, ?_, ?_⟩
    · rw [CircularBuffer.get, if_neg (by rw [hempty]; simp), hx]
      rfl
    · have hlen : xs.length + 1 ≤ N := hle
      rw [h.next_eq hN h.tail_lt]
      refine ⟨h.max_size, h.length, hlaid, ?_, ?_⟩
      · have hhead : b.head_ = (b.tail_ + (xs.length + 1)) % N := h.head
        show b.head_ = ((b.tail_ + 1) % N + xs.length) % N
        rw [hhead, Nat.mod_add_mod, Nat.add_assoc, Nat.add_comm 1]
      · show false = true ↔ xs.length = N
        simp only [Bool.false_eq_true, false_iff]
        omega

end Methods

/-- The buffer simulates the queue, call by call. -/
theorem call_simulates [Inhabited T] (hN : N < 2^64) :
    Server.Simulates CircularBuffer.call (fifoCall : Server (BoundedFifo T N) (Call T) (Answer T))
      Represents := by
  intro b q c h
  cases c with
  | put item =>
    obtain ⟨b', hput, hb'⟩ := put_represents h hN item
    refine ⟨_, b', _, ?_, rfl, hb'⟩
    simp [CircularBuffer.call, hput, hb'.answer_eq hN]
  | get =>
    obtain ⟨b', hget, hb'⟩ := get_represents h hN
    refine ⟨_, b', _, ?_, rfl, hb'⟩
    simp [CircularBuffer.call, hget, hb'.answer_eq hN]
  | reset =>
    have hb' := reset_represents h
    refine ⟨_, b.reset, _, ?_, rfl, hb'⟩
    simp [CircularBuffer.call, hb'.answer_eq hN]

/-- For every capacity `N ≥ 1` that a `size_t` can hold, whatever the initial elements are, and for
every sequence of `put`, `get`, and `reset` calls, the buffer goes through it without an access
outside `buf_`, and answers it as the bounded queue does. -/
theorem calls_eq [Inhabited T] (N : ℕ) (hN : 1 ≤ N) (hN64 : N < 2^64) (elements : Fin N → T)
    (calls : List (Call T)) :
    ∃ answers, Server.run CircularBuffer.call (CircularBuffer.new N elements) calls = some answers ∧
      Server.run fifoCall (BoundedFifo.empty : BoundedFifo T N) calls = some answers :=
  (call_simulates hN64).run_eq calls (new_represents hN elements)

/-- `calls_eq` at a capacity of two, with a third put that discards the first item. -/
theorem calls_eq_two :
    ∃ answers, Server.run CircularBuffer.call (CircularBuffer.new 2 fun _ => 0)
        [.put 100, .put 101, .put 102, .get, .reset, .get] = some answers ∧
      Server.run fifoCall (BoundedFifo.empty : BoundedFifo ℕ 2)
        [.put 100, .put 101, .put 102, .get, .reset, .get] = some answers :=
  calls_eq 2 (by decide) (by decide) _ _

end CxxPandora.RingBuffer
