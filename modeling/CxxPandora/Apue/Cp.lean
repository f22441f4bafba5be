import CxxPandora.Lib.SparseFile
import Mathlib.Data.Int.Notation
import Mathlib.Data.List.TakeWhile

/-!
# The sparse copy

`cp` of `linux/apue.3e.exs/apue3/Chapter04/exercise_6.c`. It writes the bytes other than zero and
seeks over the zeros. Zeros at the end of the source are only sought over, so the copy is shorter
than the source: `copiesTruly_iff` says that it is a true copy of every other file.
-/

namespace CxxPandora.Apue.Cp

open Lib

/-! ## The model -/

/-- `BUFFER_SIZE`. -/
def bufferSize : ℕ := 4096

/-- A source file: its length is a file offset. -/
structure Source where
  bytes : List UInt8
  length_lt : bytes.length < 2^63

/-- What the reads do: a read fails (`none`), or returns as many bytes as are given here, as long as
there are so many and they fit into the buffer, and at least one if there is one. -/
abbrev Reads := ℕ → Option ℕ

/-- How many bytes a read asks for in effect. -/
def readCount (count : ℕ) : ℕ := min (max 1 count) bufferSize

/-- The inner loops: how many bytes meet the condition, from `scanned` on to one that does not. -/
def countWhile (p : UInt8 → Bool) (chunk : List UInt8) (scanned : ℕ) : ℕ :=
  ((chunk.drop scanned).takeWhile p).length

/-- The loop over the bytes that have been read; `none` when there are more than `n` passes, and an
error when a seek fails. -/
def copyChunk (chunk : List UInt8) : ℕ → ℕ → ℕ → SparseFile → Option (Except SparseFile SparseFile)
  | 0, _, _, _ => none
  | n + 1, bytes_scanned, bytes_written, dest =>
    if bytes_written < chunk.length then
      let non_zero_count := countWhile (· != 0) chunk bytes_scanned
      let bytes_scanned := bytes_scanned + non_zero_count
      let dest := dest.write ((chunk.drop bytes_written).take non_zero_count)
      let bytes_written := bytes_written + non_zero_count
      let zero_count := countWhile (· == 0) chunk bytes_scanned
      let bytes_scanned := bytes_scanned + zero_count
      match dest.seekCur zero_count with
      | none => some (.error dest)
      | some dest => copyChunk chunk n bytes_scanned (bytes_written + zero_count) dest
    else some (.ok dest)

/-- The loop over the reads, from the read of number `k` on: the exit status and the destination;
`none` when a loop has more than `n` passes. -/
def copyLoop (reads : Reads) : ℕ → ℕ → List UInt8 → SparseFile → Option (ℤ × SparseFile)
  | 0, _, _, _ => none
  | n + 1, k, rest, dest =>
    match reads k with
    | none => some (1, dest)
    | some count =>
      let chunk := rest.take (readCount count)
      if chunk = [] then some (0, dest)
      else
        (copyChunk chunk n 0 0 dest).bind fun
          | .error dest => some (1, dest)
          | .ok dest => copyLoop reads n (k + 1) (rest.drop chunk.length) dest

/-- `cp`, for a destination that does not exist: the exit status, and the destination if made. -/
def cp (source_opens dest_opens : Bool) (reads : Reads) (n : ℕ) (source : Source) :
    Option (ℤ × Option SparseFile) :=
  if !source_opens then some (1, none)
  else if !dest_opens then some (1, none)
  else
    (copyLoop reads n 0 source.bytes .empty).map fun (exit_status, dest) =>
      (exit_status, some dest)

/-- The call terminates, and when it returns 0 the destination is the source. -/
def CopiesTruly (source_opens dest_opens : Bool) (reads : Reads) (source : Source) : Prop :=
  ∃ n exit_status dest, cp source_opens dest_opens reads n source = some (exit_status, dest) ∧
    (exit_status = 0 → dest.map SparseFile.bytes = some source.bytes)

/-- A read fails, from the one of number `k` on, with so many bytes left in the source. -/
def readFails (reads : Reads) (k left : ℕ) : Bool :=
  match reads k with
  | none => true
  | some count =>
    if _h : left = 0 then false else readFails reads (k + 1) (left - readCount count)
termination_by left
decreasing_by
  unfold readCount bufferSize
  omega

/-! ## The scan of a chunk -/

section Chunk

variable {p : UInt8 → Bool} {chunk text : List UInt8} {k n : ℕ} {dest : SparseFile}

/-- The bytes that are counted follow what has been scanned before. -/
theorem take_countWhile (p : UInt8 → Bool) (chunk : List UInt8) (k : ℕ) :
    chunk.take (k + countWhile p chunk k) = chunk.take k ++ (chunk.drop k).takeWhile p := by
  rw [List.take_add, countWhile, ← List.prefix_iff_eq_take.mp (List.takeWhile_prefix p)]

/-- They do not go beyond the chunk. -/
theorem countWhile_le (hk : k ≤ chunk.length) : k + countWhile p chunk k ≤ chunk.length := by
  have hle := (List.takeWhile_prefix (l := chunk.drop k) p).length_le
  rw [List.length_drop] at hle
  unfold countWhile
  omega

/-- Where the first byte does not meet the condition, none is counted. -/
theorem countWhile_pos (hk : k < chunk.length) (hp : p chunk[k] = true) :
    0 < countWhile p chunk k := by
  rw [countWhile, List.drop_eq_getElem_cons hk, List.takeWhile_cons_of_pos hp]
  exact Nat.succ_pos _

/-- A pass gets on. -/
theorem pass_pos (hk : k < chunk.length) : 0 < countWhile (· != 0) chunk k +
    countWhile (· == 0) chunk (k + countWhile (· != 0) chunk k) := by
  by_cases hzero : chunk[k] = 0
  · by_cases hnone : countWhile (· != 0) chunk k = 0
    · rw [hnone, Nat.add_zero]
      have hpos := countWhile_pos (p := (· == 0)) hk (beq_iff_eq.mpr hzero)
      omega
    · omega
  · have hpos := countWhile_pos (p := (· != 0)) hk (bne_iff_ne.mpr hzero)
    omega

/-- The zeros that are counted. -/
theorem takeWhile_zero (l : List UInt8) :
    l.takeWhile (· == 0) = List.replicate (l.takeWhile (· == 0)).length 0 :=
  List.eq_replicate_of_mem fun _ hc => beq_iff_eq.mp (List.mem_takeWhile_imp (p := (· == 0)) hc)

/-- A pass writes the bytes other than zero and seeks over the zeros that follow. -/
theorem pass_holds (h : dest.Holds (text ++ chunk.take k)) (hk : k ≤ chunk.length)
    (hlt : (text ++ chunk).length < 2^63) :
    ∃ dest', (dest.write ((chunk.drop k).take (countWhile (· != 0) chunk k))).seekCur
        (countWhile (· == 0) chunk (k + countWhile (· != 0) chunk k)) = some dest' ∧
      dest'.Holds (text ++ chunk.take (k + countWhile (· != 0) chunk k +
        countWhile (· == 0) chunk (k + countWhile (· != 0) chunk k))) := by
  have hdata : (chunk.drop k).take (countWhile (· != 0) chunk k) =
      (chunk.drop k).takeWhile (· != 0) :=
    (List.prefix_iff_eq_take.mp (List.takeWhile_prefix _)).symm
  have hnonzero : ∀ c ∈ (chunk.drop k).takeWhile (· != 0), c ≠ 0 := fun c hc =>
    bne_iff_ne.mp (List.mem_takeWhile_imp (p := (· != 0)) hc)
  have hwrite := h.write hnonzero
  -- The write appends all that is not zero, up to the next zero of the chunk.
  rw [List.append_assoc, ← take_countWhile] at hwrite
  have hle := countWhile_le (p := (· == 0)) (countWhile_le (p := (· != 0)) hk)
  rw [List.length_append] at hlt
  obtain ⟨dest', hseek, hholds⟩ :=
    hwrite.seekCur (n := countWhile (· == 0) chunk (k + countWhile (· != 0) chunk k)) (by
      rw [List.length_append, List.length_take]
      omega)
  refine ⟨dest', hdata ▸ hseek, ?_⟩
  rw [take_countWhile, ← List.append_assoc]
  unfold countWhile at hholds ⊢
  rw [← takeWhile_zero] at hholds
  exact hholds

/-- The loop over a chunk appends it to the destination, if it is given enough passes. -/
theorem copyChunk_eq (h : dest.Holds (text ++ chunk.take k)) (hk : k ≤ chunk.length)
    (hlt : (text ++ chunk).length < 2^63) :
    (copyChunk chunk n k k dest = none ∧ n ≤ chunk.length - k) ∨
      ∃ dest', copyChunk chunk n k k dest = some (.ok dest') ∧ dest'.Holds (text ++ chunk) := by
  induction n generalizing k dest with
  | zero => exact Or.inl ⟨rfl, Nat.zero_le _⟩
  | succ n ih =>
    unfold copyChunk
    split_ifs with hend
    · obtain ⟨dest', hseek, hholds⟩ := pass_holds h hk hlt
      have hpos := pass_pos hend
      have hle : k + countWhile (· != 0) chunk k +
          countWhile (· == 0) chunk (k + countWhile (· != 0) chunk k) ≤ chunk.length :=
        countWhile_le (countWhile_le hk)
      dsimp only
      rw [hseek]
      refine (ih hholds hle).imp_left fun ⟨hnone, hn⟩ => ⟨hnone, ?_⟩
      omega
    · have hall : chunk.take k = chunk := List.take_of_length_le (Nat.le_of_not_lt hend)
      exact Or.inr ⟨dest, rfl, hall ▸ h⟩

end Chunk

/-! ## The loop over the reads -/

section Loop

variable {reads : Reads} {rest text : List UInt8} {k n : ℕ} {dest : SparseFile}

/-- A read returns at least one byte, if there is one. -/
theorem readCount_pos (count : ℕ) : 0 < readCount count := by
  unfold readCount bufferSize
  omega

/-- A read of the end takes nothing off. -/
theorem readFails_nil (hread : reads k ≠ none) : readFails reads k 0 = false := by
  unfold readFails
  cases hcount : reads k with
  | none => exact absurd hcount hread
  | some count => rfl

/-- A read that succeeds leaves the question to the reads after it. -/
theorem readFails_succ {count : ℕ} (hread : reads k = some count) (hrest : rest ≠ []) :
    readFails reads k rest.length =
      readFails reads (k + 1) (rest.drop (readCount count)).length := by
  rw [readFails, hread, List.length_drop]
  exact dif_neg (mt List.length_eq_zero_iff.mp hrest)

/-- The loop ends, if it is given enough passes: with an error after a read that fails, else when
the destination stands for all of the source. -/
theorem copyLoop_eq (h : dest.Holds text) (hlt : (text ++ rest).length < 2^63) :
    (copyLoop reads n k rest dest = none ∧ n ≤ rest.length + 1) ∨
      ∃ dest', copyLoop reads n k rest dest =
          some (if readFails reads k rest.length then 1 else 0, dest') ∧
        (readFails reads k rest.length = false → dest'.Holds (text ++ rest)) := by
  induction n generalizing k rest text dest with
  | zero => exact Or.inl ⟨rfl, Nat.zero_le _⟩
  | succ n ih =>
    unfold copyLoop
    cases hread : reads k with
    | none =>
      -- The destination may be anything when a read has failed.
      have hfails : readFails reads k rest.length = true := by
        rw [readFails, hread]
      refine Or.inr ⟨dest, ?_, fun hfalse => Bool.noConfusion (hfails.symm.trans hfalse)⟩
      rw [hfails]
      rfl
    | some count =>
      dsimp only
      have hpos := readCount_pos count
      have hsplit : text ++ rest.take (readCount count) ++ rest.drop (readCount count) =
          text ++ rest := by
        rw [List.append_assoc, List.take_append_drop]
      by_cases hnil : rest = []
      · -- The end of the source.
        subst hnil
        have hfails : readFails reads k 0 = false :=
          readFails_nil (hread ▸ Option.some_ne_none count)
        refine Or.inr ⟨dest, ?_, fun _ => (List.append_nil text).symm ▸ h⟩
        rw [List.length_nil, hfails, List.take_nil]
        rfl
      · have hlength : (rest.take (readCount count)).length = min (readCount count) rest.length :=
          List.length_take
        have hleft : 0 < rest.length := List.length_pos_of_ne_nil hnil
        have hdrop : rest.drop (rest.take (readCount count)).length =
            rest.drop (readCount count) := by
          rw [hlength, ← List.drop_eq_drop_min]
        rw [if_neg (List.ne_nil_of_length_pos (by omega)), hdrop, readFails_succ hread hnil,
          ← hsplit]
        have hstart : dest.Holds (text ++ (rest.take (readCount count)).take 0) := by
          rw [List.take_zero, List.append_nil]
          exact h
        have hlt' : (text ++ rest.take (readCount count)).length < 2^63 := by
          rw [List.length_append] at hlt ⊢
          omega
        rcases copyChunk_eq (n := n) hstart (Nat.zero_le _) hlt' with
          ⟨hnone, hn⟩ | ⟨dest', hcopy, hholds⟩
        · -- The loop over the chunk has too few passes, which is then the case here as well.
          rw [hnone]
          exact Or.inl ⟨rfl, by omega⟩
        · rw [hcopy]
          have hstep := ih (k := k + 1) hholds (by rw [hsplit]; exact hlt)
          rw [List.length_drop] at hstep ⊢
          exact hstep.imp_left fun ⟨hnone, hn⟩ => ⟨hnone, by omega⟩

end Loop

/-! ## The copy -/

/-- A file that cannot be opened. -/
theorem copiesTruly_of_not_opens {source_opens dest_opens : Bool} (reads : Reads) (source : Source)
    (h : source_opens = false ∨ dest_opens = false) :
    CopiesTruly source_opens dest_opens reads source := by
  refine ⟨0, 1, none, ?_, fun hzero => absurd hzero Int.one_ne_zero⟩
  unfold cp
  rcases h with rfl | rfl
  · rfl
  · cases source_opens <;> rfl

/-- `cp` of files that can be opened. -/
theorem cp_eq (reads : Reads) (n : ℕ) (source : Source) :
    (cp true true reads n source = none ∧ n ≤ source.bytes.length + 1) ∨
      ∃ dest, cp true true reads n source =
          some (if readFails reads 0 source.bytes.length then 1 else 0, some dest) ∧
        (readFails reads 0 source.bytes.length = false → dest.Holds source.bytes) := by
  have hloop := @copyLoop_eq reads source.bytes [] 0 n .empty SparseFile.holds_empty
    source.length_lt
  rw [List.nil_append] at hloop
  show (Option.map _ _ = none ∧ _) ∨ ∃ dest, Option.map _ _ = _ ∧ _
  rcases hloop with ⟨hnone, hn⟩ | ⟨dest, hsome, hholds⟩
  · exact Or.inl ⟨by rw [hnone]; rfl, hn⟩
  · exact Or.inr ⟨dest, by rw [hsome]; rfl, hholds⟩

/-- The copy of files that can be opened. -/
theorem copiesTruly_of_opens (reads : Reads) (source : Source) :
    CopiesTruly true true reads source ↔
      readFails reads 0 source.bytes.length = true ∨ source.bytes.getLast? ≠ some 0 := by
  constructor
  · rintro ⟨n, exit_status, dest, hcp, htrue⟩
    rcases cp_eq reads n source with ⟨hnone, -⟩ | ⟨dest', hsome, hholds⟩
    · exact absurd (hnone.symm.trans hcp) (Option.some_ne_none _).symm
    · obtain ⟨rfl, rfl⟩ := Prod.mk.inj (Option.some.inj (hsome.symm.trans hcp))
      cases hfails : readFails reads 0 source.bytes.length with
      | true => exact Or.inl rfl
      | false =>
        have hbytes := Option.some.inj (htrue (by rw [hfails]; rfl))
        exact Or.inr ((hholds hfails).bytes_eq_iff.mp hbytes)
  · intro h
    rcases cp_eq reads (source.bytes.length + 2) source with ⟨-, hn⟩ | ⟨dest, hsome, hholds⟩
    · omega
    · refine ⟨_, _, _, hsome, fun hzero => ?_⟩
      cases hfails : readFails reads 0 source.bytes.length with
      | true =>
        rw [hfails] at hzero
        exact absurd hzero Int.one_ne_zero
      | false =>
        -- Only zeros at the end are missing.
        have hlast := h.resolve_left (Bool.eq_false_iff.mp hfails)
        exact congrArg some ((hholds hfails).bytes_eq_iff.mpr hlast)

/-- The copy is a true one exactly when it fails, as a file cannot be opened or a read fails before
the end of the source, or when the source is empty or its last byte is not a zero. -/
theorem copiesTruly_iff (source_opens dest_opens : Bool) (reads : Reads) (source : Source) :
    CopiesTruly source_opens dest_opens reads source ↔
      source_opens = false ∨ dest_opens = false ∨
        readFails reads 0 source.bytes.length = true ∨ source.bytes.getLast? ≠ some 0 := by
  cases source_opens with
  | false =>
    exact ⟨fun _ => Or.inl rfl, fun _ => copiesTruly_of_not_opens reads source (Or.inl rfl)⟩
  | true =>
    cases dest_opens with
    | false =>
      exact ⟨fun _ => Or.inr (Or.inl rfl),
        fun _ => copiesTruly_of_not_opens reads source (Or.inr rfl)⟩
    | true =>
      rw [copiesTruly_of_opens]
      simp only [Bool.true_eq_false, false_or]

/-- A source of one byte, a zero. -/
def zeroByte : Source := ⟨[0], by decide⟩

/-- The copy of one zero is empty, with all reads in full. -/
theorem not_copiesTruly_zeroByte :
    ¬∀ source_opens dest_opens reads source, CopiesTruly source_opens dest_opens reads source := by
  intro h
  have hcopies := h true true (fun _ => some bufferSize) zeroByte
  rcases (copiesTruly_of_opens _ _).mp hcopies with hfails | hlast
  · rw [readFails] at hfails
    have hnil : readFails (fun _ => some bufferSize) 1 0 = false :=
      readFails_nil (Option.some_ne_none bufferSize)
    exact Bool.noConfusion (hnil.symm.trans hfails)
  · exact hlast rfl

end CxxPandora.Apue.Cp
