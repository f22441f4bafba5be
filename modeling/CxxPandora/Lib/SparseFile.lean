import Mathlib.Algebra.Group.Nat.Defs
import Mathlib.Data.List.Basic

/-!
# Files that are written with holes

A file that is written at an offset, which can be moved without a write. A write behind the end of
the file leaves a hole, which reads as zeros; an offset behind the end alone does not make the file
longer. `Holds` says that a file stands for a text: the text is what there would be if the file were
extended up to the offset, and the file itself does not end with a zero.
-/

namespace CxxPandora.Lib

/-- A file, its bytes and the offset of the next write. -/
structure SparseFile where
  bytes : List UInt8
  offset : ℕ

namespace SparseFile

/-- The empty file. -/
def empty : SparseFile := ⟨[], 0⟩

/-- The file with zeros up to the offset. -/
def padded (f : SparseFile) : List UInt8 :=
  f.bytes ++ List.replicate (f.offset - f.bytes.length) 0

/-- A write of all bytes at the offset. A write of no bytes does nothing. -/
def write (f : SparseFile) (data : List UInt8) : SparseFile :=
  if data = [] then f
  else ⟨f.padded.take f.offset ++ data ++ f.bytes.drop (f.offset + data.length),
    f.offset + data.length⟩

/-- `lseek` with `SEEK_CUR`; `none` when the offset would be too large. -/
def seekCur (f : SparseFile) (n : ℕ) : Option SparseFile :=
  if f.offset + n < 2^63 then some ⟨f.bytes, f.offset + n⟩ else none

/-- The file stands for the text. -/
structure Holds (f : SparseFile) (text : List UInt8) : Prop where
  padded_eq : f.padded = text
  offset_eq : f.offset = text.length
  last_ne : f.bytes.getLast? ≠ some 0

variable {f : SparseFile} {text data : List UInt8} {n : ℕ}

/-- The empty file stands for the empty text. -/
theorem holds_empty : empty.Holds [] := ⟨rfl, rfl, (Option.some_ne_none _).symm⟩

/-- The offset is not before the end of the file. -/
theorem Holds.length_le (h : f.Holds text) : f.bytes.length ≤ f.offset := by
  have hlen := congrArg List.length h.padded_eq
  rw [padded, List.length_append, List.length_replicate, ← h.offset_eq] at hlen
  omega

/-- A write of bytes other than zero. -/
theorem Holds.write (h : f.Holds text) (hdata : ∀ c ∈ data, c ≠ 0) :
    (f.write data).Holds (text ++ data) := by
  unfold SparseFile.write
  split_ifs with hnil
  · rw [hnil, List.append_nil]
    exact h
  · have hle := h.length_le
    have hbytes : f.padded.take f.offset ++ data ++ f.bytes.drop (f.offset + data.length) =
        text ++ data := by
      rw [h.padded_eq, h.offset_eq, List.take_length, List.drop_of_length_le, List.append_nil]
      rw [← h.offset_eq]
      omega
    have hoffset : f.offset + data.length = (text ++ data).length := by
      rw [List.length_append, h.offset_eq]
    rw [hbytes, hoffset]
    refine ⟨?_, rfl, ?_⟩
    · show text ++ data ++ List.replicate ((text ++ data).length - (text ++ data).length) 0 = _
      rw [Nat.sub_self, List.replicate_zero, List.append_nil]
    · show (text ++ data).getLast? ≠ some 0
      rw [List.getLast?_append_of_ne_nil _ hnil, List.getLast?_eq_some_getLast hnil]
      exact fun heq => hdata _ (List.getLast_mem hnil) (Option.some.inj heq)

/-- A seek over zeros. -/
theorem Holds.seekCur (h : f.Holds text) (hlt : text.length + n < 2^63) :
    ∃ f', f.seekCur n = some f' ∧ f'.Holds (text ++ List.replicate n 0) := by
  have hle := h.length_le
  unfold SparseFile.seekCur
  rw [if_pos (by rw [h.offset_eq]; exact hlt)]
  refine ⟨_, rfl, ?_, ?_, h.last_ne⟩
  · have hsub : f.offset + n - f.bytes.length = f.offset - f.bytes.length + n := by omega
    show f.bytes ++ List.replicate (f.offset + n - f.bytes.length) 0 = _
    rw [hsub, List.replicate_add, ← List.append_assoc, ← h.padded_eq]
    rfl
  · rw [List.length_append, List.length_replicate, ← h.offset_eq]

/-- The bytes of the file are the text exactly when the text does not end with a zero. -/
theorem Holds.bytes_eq_iff (h : f.Holds text) : f.bytes = text ↔ text.getLast? ≠ some 0 := by
  constructor
  · rintro rfl
    exact h.last_ne
  · intro hlast
    have hpadded := h.padded_eq
    unfold padded at hpadded
    by_cases hzero : f.offset - f.bytes.length = 0
    · rwa [hzero, List.replicate_zero, List.append_nil] at hpadded
    · refine absurd ?_ hlast
      rw [← hpadded, List.getLast?_append_of_ne_nil _ (by simpa using hzero),
        List.getLast?_replicate, if_neg hzero]

end SparseFile

end CxxPandora.Lib
