import CxxPandora.Lib.Words
import CxxPandora.Sendfile

/-!
# The line reader

`readline` of `linux/socket/poll/client.cpp`, which `linux/socket/tcp/client.cpp` has as well. It
reads a line one byte at a time, as `fgets` does, up to `maxlen - 1` bytes. Its counter `n` is one
ahead of the bytes stored while the loop runs. A newline leaves the loop before `n` is incremented,
so that `n` is then their number; a full buffer leaves it after, and the result is one too many.
`readline_iff` says for which streams the result is right.
-/

namespace CxxPandora.Poll

open Lib
open Sendfile (fgetsLine fgetsLine_spec)

/-! ## The model -/

/-- The memory at `vptr`, by index. -/
abbrev Memory := ℕ → UInt8

/-- The memory after some bytes have been stored from an index on. -/
def store (vptr : Memory) (ptr : ℕ) (bytes : List UInt8) : Memory := fun i =>
  if ptr ≤ i then bytes[i - ptr]?.getD (vptr i) else vptr i

/-- What `readline` leaves: its result, the memory at `vptr`, and the reads still to come. -/
@[ext]
structure Returned where
  ret : ℤ
  vptr : Memory
  fd : List (Option UInt8)

/-- The loop of `readline`. The list `fd` is the results of the reads to come, a byte or an error
each, and then end-of-file. `none` when `n++` overflows. -/
def readlineLoop (maxlen n ptr : ℕ) (vptr : Memory) (fd : List (Option UInt8)) : Option Returned :=
  if n < maxlen then
    match fd with
    | [] => some ⟨n - 1, store vptr ptr [0], []⟩
    | none :: fd => some ⟨-1, vptr, fd⟩
    | some c :: fd =>
      if c = 10 then some ⟨n, store (store vptr ptr [c]) (ptr + 1) [0], fd⟩
      else if (n : ℤ) + 1 ≤ longMax then
        readlineLoop maxlen (n + 1) (ptr + 1) (store vptr ptr [c]) fd
      else none
  else some ⟨n, store vptr ptr [0], fd⟩

/-- `readline(fd, vptr, maxlen)`. -/
def readline (fd : List (Option UInt8)) (vptr : Memory) (maxlen : ℕ) : Option Returned :=
  readlineLoop maxlen 1 0 vptr fd

/-! ## The result of the loop -/

/-- A byte stored, and more after it. -/
theorem store_store (vptr : Memory) (ptr : ℕ) (c : UInt8) (bytes : List UInt8) :
    store (store vptr ptr [c]) (ptr + 1) bytes = store vptr ptr (c :: bytes) := by
  funext i
  unfold store
  rcases Nat.lt_trichotomy i ptr with hlt | rfl | hgt
  · rw [if_neg (by omega), if_neg (by omega), if_neg (by omega)]
  · rw [if_neg (by omega), if_pos (Nat.le_refl i), if_pos (Nat.le_refl i), Nat.sub_self]
    rfl
  · have hsucc : i - ptr = (i - (ptr + 1)) + 1 := by omega
    rw [if_pos (by omega), if_pos (by omega), if_pos (by omega), hsucc]
    simp

/-- How many bytes the loop may read from the counter `n` on before it leaves with a result that is
not their number: as many as there is room for, and no more than the counter can count. -/
def room (maxlen n : ℕ) : ℕ := min maxlen (2^63) - n

/-- A line or the end of the stream comes within `k` bytes: there is a newline among them, or the
stream has fewer. -/
def EndsWithin (k : ℕ) (stream : List UInt8) : Prop := 10 ∈ stream.take k ∨ stream.length < k

/-- Nothing comes within no bytes. -/
theorem EndsWithin.pos {k : ℕ} {stream : List UInt8} (h : EndsWithin k stream) : 0 < k := by
  rcases h with hmem | hlen
  · refine Nat.pos_of_ne_zero fun h0 => ?_
    rw [h0, List.take_zero] at hmem
    exact absurd hmem List.not_mem_nil
  · exact Nat.zero_lt_of_lt hlen

/-- After a byte that is not a newline, the end comes within one byte fewer. -/
theorem endsWithin_cons_iff {c : UInt8} (hc : c ≠ 10) (k : ℕ) (stream : List UInt8) :
    EndsWithin (k + 1) (c :: stream) ↔ EndsWithin k stream := by
  unfold EndsWithin
  rw [List.take_succ_cons, List.mem_cons, or_iff_right (Ne.symm hc), List.length_cons,
    Nat.add_lt_add_iff_right]

/-- When the end comes within the bytes that there is room for, the loop stores a line and returns
the number of its bytes. -/
theorem readlineLoop_eq {maxlen n ptr : ℕ} {vptr : Memory} {stream : List UInt8} (hn : n = ptr + 1)
    (h : EndsWithin (room maxlen n) stream) :
    readlineLoop maxlen n ptr vptr (stream.map some) =
      some ⟨ptr + (fgetsLine (maxlen - n) stream).length,
        store vptr ptr (fgetsLine (maxlen - n) stream ++ [0]),
        (stream.drop (fgetsLine (maxlen - n) stream).length).map some⟩ := by
  induction stream generalizing n ptr vptr with
  | nil =>
    have hroom := h.pos
    unfold room at hroom
    obtain ⟨k, hk⟩ : ∃ k, maxlen - n = k + 1 := ⟨maxlen - n - 1, by omega⟩
    rw [List.map_nil, readlineLoop, if_pos (by omega), hk, fgetsLine, hn]
    simp
  | cons c stream ih =>
    have hroom := h.pos
    unfold room at hroom
    obtain ⟨k, hk⟩ : ∃ k, maxlen - n = k + 1 := ⟨maxlen - n - 1, by omega⟩
    rw [List.map_cons, readlineLoop, if_pos (by omega), hk, fgetsLine]
    by_cases hc : c = 10
    · rw [if_pos hc, if_pos hc, store_store, hn]
      simp
    · have hpred : room maxlen n = room maxlen (n + 1) + 1 := by
        unfold room
        omega
      rw [hpred, endsWithin_cons_iff hc] at h
      have hroom' := h.pos
      have hk' : maxlen - (n + 1) = k := by omega
      have hmax : (n : ℤ) + 1 ≤ longMax := by
        unfold room at hroom'
        unfold longMax
        omega
      rw [if_neg hc, if_neg hc, if_pos hmax, ih (by omega) h, hk', store_store, List.length_cons,
        List.drop_succ_cons, List.cons_append]
      congr 2
      push_cast
      omega

/-- When it does not, the result is one too many, if there is a result. -/
theorem ret_of_readlineLoop {maxlen n ptr : ℕ} {vptr : Memory} {stream : List UInt8}
    {r : Returned} (hn : n = ptr + 1) (hmax : n < 2^63) (h : ¬EndsWithin (room maxlen n) stream)
    (hr : readlineLoop maxlen n ptr vptr (stream.map some) = some r) :
    r.ret = ptr + (fgetsLine (maxlen - n) stream).length + 1 := by
  induction stream generalizing n ptr vptr with
  | nil =>
    have hfull : ¬n < maxlen := by
      intro hlt
      refine h (Or.inr ?_)
      unfold room
      rw [List.length_nil]
      omega
    rw [List.map_nil, readlineLoop, if_neg hfull] at hr
    rw [← Option.some.inj hr, Nat.sub_eq_zero_of_le (Nat.le_of_not_lt hfull), fgetsLine, hn]
    simp
  | cons c stream ih =>
    rw [List.map_cons, readlineLoop] at hr
    by_cases hlt : n < maxlen
    · obtain ⟨k, hk⟩ : ∃ k, maxlen - n = k + 1 := ⟨maxlen - n - 1, by omega⟩
      have hpred : room maxlen n = room maxlen (n + 1) + 1 := by
        unfold room
        omega
      have hc : c ≠ 10 := by
        rintro rfl
        refine h (Or.inl ?_)
        rw [hpred, List.take_succ_cons]
        exact List.mem_cons_self
      rw [hpred, endsWithin_cons_iff hc] at h
      rw [if_pos hlt, if_neg hc] at hr
      split_ifs at hr with hlong
      have hnext : n + 1 < 2^63 := by
        unfold longMax at hlong
        omega
      have hret := ih (by omega) hnext h hr
      have hk' : maxlen - (n + 1) = k := by omega
      rw [hret, hk', hk, fgetsLine, if_neg hc, List.length_cons]
      push_cast
      omega
    · rw [if_neg hlt] at hr
      rw [← Option.some.inj hr, Nat.sub_eq_zero_of_le (Nat.le_of_not_lt hlt), fgetsLine, hn]
      simp

/-! ## The bounded line reader -/

/-- `readline` reads a line as a bounded line reader does: it consumes the line, or `maxlen - 1`
bytes, or the rest of the stream, whichever is shortest, stores just that and a NUL, below `maxlen`,
and returns the number of bytes before the NUL. -/
structure ReadsLine (stream : List UInt8) (vptr : Memory) (maxlen : ℕ) : Prop where
  /-- The call returns. -/
  eq : readline (stream.map some) vptr maxlen =
    some ⟨(fgetsLine (maxlen - 1) stream).length,
      store vptr 0 (fgetsLine (maxlen - 1) stream ++ [0]),
      (stream.drop (fgetsLine (maxlen - 1) stream).length).map some⟩
  /-- There is room for the NUL. -/
  length_lt : (fgetsLine (maxlen - 1) stream).length < maxlen

/-- With the end among the bytes that there is room for, the line is read. -/
theorem readsLine_of_endsWithin {stream : List UInt8} {maxlen : ℕ} (vptr : Memory)
    (h : EndsWithin (min (maxlen - 1) (2^63 - 1)) stream) : ReadsLine stream vptr maxlen := by
  have hroom : room maxlen 1 = min (maxlen - 1) (2^63 - 1) := by
    unfold room
    omega
  have hpos := h.pos
  have hle := (fgetsLine_spec (maxlen - 1) stream).2
  refine ⟨?_, by omega⟩
  rw [readline, readlineLoop_eq rfl (hroom ▸ h)]
  congr 2
  push_cast
  omega

/-- Without it, the result is not the number of bytes stored. -/
theorem not_readsLine {stream : List UInt8} {maxlen : ℕ} (vptr : Memory)
    (h : ¬EndsWithin (min (maxlen - 1) (2^63 - 1)) stream) : ¬ReadsLine stream vptr maxlen := by
  intro hreads
  have hroom : room maxlen 1 = min (maxlen - 1) (2^63 - 1) := by
    unfold room
    omega
  have hret := ret_of_readlineLoop rfl (by decide) (hroom ▸ h) hreads.eq
  push_cast at hret
  omega

/-- `readline` is a bounded line reader for exactly the streams that have a newline among the first
`maxlen - 1` bytes, or fewer bytes than that. -/
theorem readline_iff (stream : List UInt8) (vptr : Memory) (maxlen : ℕ) :
    ReadsLine stream vptr maxlen ↔ EndsWithin (min (maxlen - 1) (2^63 - 1)) stream :=
  ⟨fun hreads => by_contra fun h => not_readsLine vptr h hreads, readsLine_of_endsWithin vptr⟩

/-- Of the four bytes `abcd`, with room for four, `readline` stores three and returns 4. -/
theorem readline_full_buffer :
    ¬ReadsLine [97, 98, 99, 100] (fun _ => 0) 4 ∧
      (readline ([97, 98, 99, 100].map some) (fun _ => 0) 4).map Returned.ret = some 4 := by
  refine ⟨not_readsLine _ ?_, rfl⟩
  rintro (hmem | hlen)
  · exact absurd hmem (by decide)
  · exact absurd hlen (by decide)

end CxxPandora.Poll
