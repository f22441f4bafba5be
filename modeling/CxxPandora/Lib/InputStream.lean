import Mathlib.Algebra.Group.Nat.Defs
import Mathlib.Data.List.Basic

/-!
# Input streams over a file

The state of an input stream of C++ over a file: its position, `eofbit` and `failbit`. An operation
on a stream that is not good sets `failbit` and does nothing else, a read that is cut short by the
end of the file sets both bits, and a seek clears `eofbit` first.
-/

namespace CxxPandora.Lib

/-- An input stream over a file. -/
structure InputStream where
  /-- The bytes of the file. -/
  file : List UInt8
  /-- The position of the next byte. -/
  pos : ℕ
  /-- Whether a read came to the end of the file. -/
  eofbit : Bool
  /-- Whether an operation failed. -/
  failbit : Bool

namespace InputStream

/-- A stream that has just been opened on a file. -/
def ofFile (file : List UInt8) : InputStream := ⟨file, 0, false, false⟩

/-- `good`: none of the bits is set. -/
def good (s : InputStream) : Bool := !s.eofbit && !s.failbit

/-- The bytes from the position on. -/
def rest (s : InputStream) : List UInt8 := s.file.drop s.pos

/-- `read` and `gcount`: the bytes that a read of `n` bytes stores. -/
def read (s : InputStream) (n : ℕ) : List UInt8 × InputStream :=
  if s.good then
    let chunk := s.rest.take n
    let short := decide (chunk.length < n)
    (chunk, { s with pos := s.pos + chunk.length, eofbit := short, failbit := short })
  else ([], { s with failbit := true })

/-- `seekg` by `off` bytes from the current position. It fails when the position is too large for a
file offset. -/
def seekgCur (s : InputStream) (off : ℕ) : InputStream :=
  if s.failbit then { s with eofbit := false }
  else if s.pos + off < 2^63 then { s with pos := s.pos + off, eofbit := false }
  else { s with eofbit := false, failbit := true }

/-- What a good stream reads. -/
theorem read_fst_of_good {s : InputStream} (h : s.good = true) (n : ℕ) :
    (s.read n).1 = s.rest.take n := by
  rw [read, if_pos h]

/-- A stream that has failed reads nothing. -/
theorem read_fst_of_failbit {s : InputStream} (h : s.failbit = true) (n : ℕ) :
    (s.read n).1 = [] := by
  rw [read, good, h, Bool.not_true, Bool.and_false]
  rfl

/-- What a read stores is no longer than the rest, which it shortens by as much. -/
theorem length_rest_read (s : InputStream) (n : ℕ) :
    (s.read n).1.length + (s.read n).2.rest.length = s.rest.length := by
  unfold read
  split_ifs with h
  · simp only [rest, List.length_take, List.length_drop]
    omega
  · simp only [rest, List.length_nil, Nat.zero_add]

/-- A seek forwards does not lengthen the rest. -/
theorem length_rest_seekgCur_le (s : InputStream) (off : ℕ) :
    (s.seekgCur off).rest.length ≤ s.rest.length := by
  unfold seekgCur
  split_ifs
  · exact Nat.le_refl _
  · simp only [rest, List.length_drop]
    omega
  · exact Nat.le_refl _

/-- A seek that does not fail skips `off` bytes. -/
theorem length_rest_seekgCur {s : InputStream} {off : ℕ}
    (h : (s.seekgCur off).failbit = false) :
    (s.seekgCur off).rest.length = s.rest.length - off := by
  unfold seekgCur at h ⊢
  split_ifs at h ⊢ with hfail hpos
  · exact absurd (hfail.symm.trans h) Bool.noConfusion
  · simp only [rest, List.length_drop]
    omega

end InputStream

end CxxPandora.Lib
