import CxxPandora.Lib.InputStream

/-!
# Reading a file in a loop

`ReadWhile` of `demos/fs/main.cpp` reads a file 1024 bytes at a time. After each read it also moves
the position forward by as many bytes as it has read, although the read has already done so: of a
file that is longer than the buffer, every second chunk is skipped. `readWhile_covers_iff` says for
which files the chunks are the whole file.
-/

namespace CxxPandora.Fs

open Lib

/-- `buf_size`. -/
def bufSize : ℕ := 1024

/-- The loop, from the state of the stream: the chunks that it reads. -/
def readLoop (s : InputStream) : List (List UInt8) :=
  if s.eofbit then []
  else
    let chunk := (s.read bufSize).1
    -- `if (0 == num_read) break;`
    if _h : chunk = [] then [] else chunk :: readLoop ((s.read bufSize).2.seekgCur chunk.length)
termination_by s.rest.length
decreasing_by
  have hread := s.length_rest_read bufSize
  have hseek := (s.read bufSize).2.length_rest_seekgCur_le (s.read bufSize).1.length
  have hpos : 0 < (s.read bufSize).1.length := List.length_pos_iff.mpr _h
  show ((s.read bufSize).2.seekgCur (s.read bufSize).1.length).rest.length < s.rest.length
  omega

/-- The chunks that `ReadWhile` reads of a file. -/
def readWhile (content : List UInt8) : List (List UInt8) := readLoop (.ofFile content)

/-- One pass: nothing when the stream is at its end or reads nothing, and otherwise a chunk. -/
theorem readLoop_eq (s : InputStream) :
    readLoop s =
      if s.eofbit ∨ (s.read bufSize).1 = [] then []
      else (s.read bufSize).1 ::
        readLoop ((s.read bufSize).2.seekgCur (s.read bufSize).1.length) := by
  rw [readLoop]
  by_cases heof : s.eofbit = true
  · rw [if_pos heof, if_pos (Or.inl heof)]
  · rw [if_neg heof]
    by_cases hchunk : (s.read bufSize).1 = []
    · rw [if_pos (Or.inr hchunk)]
      exact dif_pos hchunk
    · rw [if_neg (not_or.mpr ⟨heof, hchunk⟩)]
      exact dif_neg hchunk

/-- A stream that reads nothing ends the loop. -/
theorem readLoop_of_read_nil {s : InputStream} (h : (s.read bufSize).1 = []) : readLoop s = [] := by
  rw [readLoop_eq, if_pos (Or.inr h)]

/-- So does a stream with nothing left. -/
theorem readLoop_of_rest_nil {s : InputStream} (h : s.rest = []) : readLoop s = [] := by
  have hlen := s.length_rest_read bufSize
  rw [h, List.length_nil] at hlen
  exact readLoop_of_read_nil (List.length_eq_zero_iff.mp (Nat.eq_zero_of_add_eq_zero_right hlen))

/-- The chunks are together no longer than the rest of the file. -/
theorem length_flatten_readLoop_le (s : InputStream) :
    (readLoop s).flatten.length ≤ s.rest.length := by
  induction hn : s.rest.length using Nat.strongRecOn generalizing s with
  | ind n ih =>
    rw [readLoop_eq]
    split_ifs with hend
    · exact Nat.zero_le n
    · obtain ⟨-, hchunk⟩ := not_or.mp hend
      have hpos := List.length_pos_iff.mpr hchunk
      have hread := s.length_rest_read bufSize
      have hseek := (s.read bufSize).2.length_rest_seekgCur_le (s.read bufSize).1.length
      have hlt : ((s.read bufSize).2.seekgCur (s.read bufSize).1.length).rest.length < n := by
        omega
      have hrest := ih _ hlt _ rfl
      rw [List.flatten_cons, List.length_append]
      omega

/-! ## The files that are read whole -/

/-- The first chunk of a file. -/
theorem read_ofFile_fst (content : List UInt8) :
    ((InputStream.ofFile content).read bufSize).1 = content.take bufSize :=
  InputStream.read_fst_of_good rfl bufSize

/-- A file that fits in the buffer is read whole. -/
theorem flatten_readWhile_of_le {content : List UInt8} (h : content.length ≤ bufSize) :
    (readWhile content).flatten = content := by
  have htake : content.take bufSize = content := List.take_of_length_le h
  rw [readWhile, readLoop_eq, read_ofFile_fst, htake]
  by_cases hnil : content = []
  · rw [if_pos (Or.inr hnil), hnil, List.flatten_nil]
  · have hread := (InputStream.ofFile content).length_rest_read bufSize
    have hseek :=
      ((InputStream.ofFile content).read bufSize).2.length_rest_seekgCur_le content.length
    have hfile : (InputStream.ofFile content).rest.length = content.length := rfl
    rw [read_ofFile_fst, htake] at hread
    have hgoon : ¬((InputStream.ofFile content).eofbit = true ∨ content = []) :=
      not_or.mpr ⟨Bool.false_ne_true, hnil⟩
    rw [if_neg hgoon,
      readLoop_of_rest_nil (List.length_eq_zero_iff.mp (by omega)), List.flatten_singleton]

/-- A file that does not fit is not: the second chunk is skipped. -/
theorem length_flatten_readWhile_lt {content : List UInt8} (h : bufSize < content.length) :
    (readWhile content).flatten.length < content.length := by
  have hlen : (content.take bufSize).length = bufSize := List.length_take_of_le (Nat.le_of_lt h)
  have hread := (InputStream.ofFile content).length_rest_read bufSize
  have hfile : (InputStream.ofFile content).rest.length = content.length := rfl
  rw [readWhile, readLoop_eq, read_ofFile_fst]
  split_ifs with hend
  · exact Nat.zero_lt_of_lt h
  rw [read_ofFile_fst] at hread
  rw [List.flatten_cons, List.length_append]
  cases hfail : (((InputStream.ofFile content).read bufSize).2.seekgCur
      (content.take bufSize).length).failbit with
  | false =>
    have hseek := InputStream.length_rest_seekgCur hfail
    have hrest := length_flatten_readLoop_le
      (((InputStream.ofFile content).read bufSize).2.seekgCur (content.take bufSize).length)
    have hpos : 0 < bufSize := by decide
    omega
  | true =>
    rw [readLoop_of_read_nil (InputStream.read_fst_of_failbit hfail bufSize), List.flatten_nil,
      List.length_nil]
    omega

/-- The chunks that `ReadWhile` reads are exactly the file, each byte once, if and only if the file
fits in the buffer. -/
theorem readWhile_covers_iff (content : List UInt8) :
    (readWhile content).flatten = content ↔ content.length ≤ bufSize := by
  refine ⟨fun heq => ?_, flatten_readWhile_of_le⟩
  by_contra hlong
  have hlt := length_flatten_readWhile_lt (Nat.lt_of_not_le hlong)
  rw [heq] at hlt
  exact Nat.lt_irrefl _ hlt

/-- A file of 1025 bytes is read only up to its last byte. -/
theorem readWhile_loses_last_byte :
    (readWhile (List.replicate 1025 1)).flatten ≠ List.replicate 1025 1 := by
  intro heq
  have hlong : bufSize < (List.replicate 1025 (1 : UInt8)).length := by
    rw [List.length_replicate]
    decide
  have hlt := length_flatten_readWhile_lt hlong
  rw [heq] at hlt
  exact Nat.lt_irrefl _ hlt

end CxxPandora.Fs
