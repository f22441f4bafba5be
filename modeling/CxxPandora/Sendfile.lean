import CxxPandora.Lib.Bytes
import CxxPandora.Lib.Machine

/-!
# File transfer over a stream

The server and the client of `linux/linux-sendfile`. In mode 1 the server sends, for each line that
`fgets` reads, its whole buffer: the line, and NUL bytes up to 1024. In mode 2 `sendfile` sends the
file. The client prints what each `recv` leaves in its buffer as a C string. `received_iff` says for
which contents and segmentations of the stream the client's file is the server's.
-/

namespace CxxPandora.Sendfile

open Lib

/-- The size of both programs' `buf`. -/
def bufSize : ℕ := 1024

/-- A cleared buffer: `memset(buf, '\\0', sizeof(buf))`. -/
def cleared : List UInt8 := List.replicate bufSize 0

/-! ## The server -/

/-- What `fgets` reads of a file: up to `n` bytes, no further than the first newline. -/
def fgetsLine : ℕ → List UInt8 → List UInt8
  | 0, _ => []
  | _ + 1, [] => []
  | n + 1, c :: rest => if c = 10 then [c] else c :: fgetsLine n rest

/-- A file that is not at its end has a line. -/
theorem fgetsLine_ne_nil {file : List UInt8} (n : ℕ) (h : file ≠ []) :
    fgetsLine (n + 1) file ≠ [] := by
  cases file with
  | nil => exact absurd rfl h
  | cons c rest =>
    rw [fgetsLine]
    split_ifs
    · exact List.cons_ne_nil _ _
    · exact List.cons_ne_nil _ _

/-- The loop of mode 1, from what is left of the file: `fgets` stores the line and a NUL in the
buffer, `send` sends the whole buffer, and `memset` clears it. -/
def sendLoop (buf file : List UInt8) : List UInt8 :=
  if h : file = [] then []
  else
    let line := fgetsLine (bufSize - 1) file
    overwrite buf (line ++ [0]) ++ sendLoop cleared (file.drop line.length)
termination_by file.length
decreasing_by
  have hline := List.length_pos_iff.mpr (fgetsLine_ne_nil (bufSize - 2) h)
  have hfile := List.length_pos_iff.mpr h
  rw [List.length_drop]
  show file.length - (fgetsLine (bufSize - 2 + 1) file).length < file.length
  omega

/-- The mode of the server, its `op` argument. -/
inductive Op
  | send
  | sendfile

/-- The bytes that the server puts on the stream. -/
def serve (op : Op) (file : List UInt8) : List UInt8 :=
  match op with
  | .send => sendLoop cleared file
  | .sendfile => file

/-! ## The client -/

/-- The loop of the client, over the chunks that `recv` stores at the start of the buffer:
`fprintf(fp, "%s", buf)` prints the buffer as a C string, and `memset` clears it. `none` when the
buffer has no NUL. -/
def recvLoop (buf : List UInt8) : List (List UInt8) → Option (List UInt8)
  | [] => some []
  | chunk :: chunks =>
    (readCStr (overwrite buf chunk)).bind fun s => (recvLoop cleared chunks).map (s ++ ·)

/-- The client's file after the chunks. -/
def receive (chunks : List (List UInt8)) : Option (List UInt8) := recvLoop cleared chunks

/-! ## The stream of mode 1 -/

/-- A line is a prefix of the file, and at most as long as `fgets` may read. -/
theorem fgetsLine_spec (n : ℕ) (file : List UInt8) :
    fgetsLine n file ++ file.drop (fgetsLine n file).length = file ∧
      (fgetsLine n file).length ≤ n := by
  induction n generalizing file with
  | zero => exact ⟨rfl, Nat.le_refl 0⟩
  | succ n ih =>
    cases file with
    | nil => exact ⟨rfl, Nat.zero_le _⟩
    | cons c rest =>
      obtain ⟨hsplit, hlen⟩ := ih rest
      rw [fgetsLine]
      split_ifs
      · exact ⟨rfl, by rw [List.length_singleton]; omega⟩
      · rw [List.length_cons, List.drop_succ_cons, List.cons_append, hsplit]
        exact ⟨rfl, by omega⟩

/-- A newline ends a line. -/
theorem notMem_dropLast_fgetsLine (n : ℕ) (file : List UInt8) :
    10 ∉ (fgetsLine n file).dropLast := by
  induction n generalizing file with
  | zero => exact List.not_mem_nil
  | succ n ih =>
    cases file with
    | nil => exact List.not_mem_nil
    | cons c rest =>
      rw [fgetsLine]
      split_ifs with hc
      · exact List.not_mem_nil
      · intro hmem
        cases hline : fgetsLine n rest with
        | nil =>
          rw [hline] at hmem
          exact absurd hmem List.not_mem_nil
        | cons d line =>
          rw [hline, List.dropLast_cons_cons, ← hline] at hmem
          exact (List.mem_cons.mp hmem).elim (fun h => hc h.symm) (ih rest)

/-- A line without a newline, of fewer bytes than `fgets` may read, is the last of the file. -/
theorem drop_fgetsLine_eq_nil {n : ℕ} {file : List UInt8} (h : 10 ∉ fgetsLine n file)
    (hlen : (fgetsLine n file).length < n) : file.drop (fgetsLine n file).length = [] := by
  induction n generalizing file with
  | zero => exact absurd hlen (Nat.not_lt_zero _)
  | succ n ih =>
    cases file with
    | nil => rfl
    | cons c rest =>
      rw [fgetsLine] at h hlen ⊢
      split_ifs at h hlen ⊢ with hc
      · exact absurd (hc ▸ List.mem_singleton_self c) h
      · rw [List.length_cons] at hlen ⊢
        rw [List.drop_succ_cons]
        exact ih (fun hmem => h (List.mem_cons_of_mem c hmem)) (Nat.lt_of_succ_lt_succ hlen)

/-- A block of the stream is a line with NUL bytes up to the size of the buffer. -/
theorem overwrite_cleared {bytes : List UInt8} :
    overwrite cleared bytes = bytes ++ List.replicate (bufSize - bytes.length) 0 := by
  rw [overwrite, cleared, List.drop_replicate]

/-- The nonzero bytes of some bytes and NUL bytes after them. -/
theorem filter_append_zeros (bytes : List UInt8) (n : ℕ) :
    (bytes ++ List.replicate n 0).filter (· != 0) = bytes.filter (· != 0) := by
  rw [List.filter_append, List.filter_replicate_of_neg (by decide), List.append_nil]

/-- Bytes without a NUL are all nonzero. -/
theorem filter_eq_self {bytes : List UInt8} (h : 0 ∉ bytes) : bytes.filter (· != 0) = bytes := by
  refine List.filter_eq_self.mpr fun c hc => ?_
  rw [bne_iff_ne]
  rintro rfl
  exact h hc

/-- The stream of mode 1 has the nonzero bytes of the file. -/
theorem filter_sendLoop (file : List UInt8) :
    (sendLoop cleared file).filter (· != 0) = file.filter (· != 0) := by
  -- By induction along the loop, whose buffer is cleared at the start of each round.
  induction hn : file.length using Nat.strong_induction_on generalizing file with
  | _ n ih =>
    rw [sendLoop]
    split_ifs with h
    · rw [h]
    · obtain ⟨hsplit, -⟩ := fgetsLine_spec (bufSize - 1) file
      have hpos := List.length_pos_iff.mpr (fgetsLine_ne_nil (bufSize - 2) h)
      have hfile := List.length_pos_iff.mpr h
      have hrest : (file.drop (fgetsLine (bufSize - 1) file).length).length < n := by
        rw [List.length_drop, ← hn]
        show file.length - (fgetsLine (bufSize - 2 + 1) file).length < file.length
        omega
      have hzero : ([0] : List UInt8).filter (· != 0) = [] := rfl
      dsimp only
      rw [List.filter_append, ih _ hrest _ rfl, overwrite_cleared, filter_append_zeros,
        List.filter_append, hzero, List.append_nil, ← List.filter_append, hsplit]

/-- The stream has the nonzero bytes of the file, in both modes. -/
theorem filter_serve (op : Op) (file : List UInt8) :
    (serve op file).filter (· != 0) = file.filter (· != 0) := by
  cases op with
  | send => exact filter_sendLoop file
  | sendfile => rfl

/-! ## The client's file -/

/-- A chunk in a cleared buffer ends in a NUL unless it fills the buffer without one. -/
theorem readCStr_chunk {chunk : List UInt8} (hlen : chunk.length ≤ bufSize) :
    readCStr (overwrite cleared chunk) =
      if chunk.length = bufSize → 0 ∈ chunk then some (cstr chunk) else none := by
  rw [overwrite_cleared, readCStr]
  by_cases hfull : chunk.length = bufSize
  · rw [hfull, Nat.sub_self, List.replicate_zero, List.append_nil]
    simp only [true_imp_iff]
  · have hn : bufSize - chunk.length = bufSize - chunk.length - 1 + 1 := by omega
    rw [hn, List.replicate_succ, cstr_append_zero, if_pos (by simp), if_pos fun h => absurd h hfull]

/-- The client's file is the C strings of the chunks, and it is defined when no chunk fills the
buffer without a NUL. -/
theorem receive_eq_some_iff {chunks : List (List UInt8)} (hlen : ∀ c ∈ chunks, c.length ≤ bufSize)
    (out : List UInt8) :
    receive chunks = some out ↔
      (∀ c ∈ chunks, c.length = bufSize → 0 ∈ c) ∧ (chunks.map cstr).flatten = out := by
  unfold receive
  induction chunks generalizing out with
  | nil => simp [recvLoop]
  | cons chunk chunks ih =>
    have hchunk := hlen chunk List.mem_cons_self
    have ih' := ih fun c hc => hlen c (List.mem_cons_of_mem chunk hc)
    rw [recvLoop, readCStr_chunk hchunk]
    simp only [List.forall_mem_cons, List.map_cons, List.flatten_cons]
    split_ifs with hnul
    · rw [Option.bind_some, Option.map_eq_some_iff]
      constructor
      · rintro ⟨rest, hrest, rfl⟩
        obtain ⟨hall, hflat⟩ := (ih' rest).mp hrest
        exact ⟨⟨hnul, hall⟩, by rw [hflat]⟩
      · rintro ⟨⟨-, hall⟩, hflat⟩
        exact ⟨_, (ih' _).mpr ⟨hall, rfl⟩, hflat⟩
    · rw [Option.bind_none]
      constructor
      · intro h
        cases h
      · rintro ⟨⟨h, -⟩, -⟩
        exact absurd h hnul

/-- After its first NUL the chunk has only NUL bytes. -/
def Padded (chunk : List UInt8) : Prop := ∀ c ∈ chunk.dropWhile (· != 0), c = 0

instance (chunk : List UInt8) : Decidable (Padded chunk) := List.decidableBAll (· = 0) _

/-- The nonzero bytes of a chunk are its C string and the nonzero bytes after the first NUL. -/
theorem filter_eq_cstr_append (chunk : List UInt8) :
    chunk.filter (· != 0) = cstr chunk ++ (chunk.dropWhile (· != 0)).filter (· != 0) := by
  have hself := filter_eq_self (zero_notMem_cstr chunk)
  unfold cstr at hself ⊢
  conv_lhs => rw [← List.takeWhile_append_dropWhile (p := (· != 0)) (l := chunk)]
  rw [List.filter_append, hself]

/-- A chunk is padded exactly when no nonzero byte comes after its first NUL. -/
theorem padded_iff (chunk : List UInt8) :
    Padded chunk ↔ (chunk.dropWhile (· != 0)).filter (· != 0) = [] := by
  rw [List.filter_eq_nil_iff]
  simp [Padded]

/-- The C strings of the chunks are all the nonzero bytes exactly when every chunk is padded. -/
theorem flatten_cstr_eq_iff (chunks : List (List UInt8)) :
    (chunks.map cstr).flatten = chunks.flatten.filter (· != 0) ↔ ∀ c ∈ chunks, Padded c := by
  -- The lengths decide: what the C strings leave out is the nonzero bytes after a NUL.
  have hlen : (chunks.flatten.filter (· != 0)).length = ((chunks.map cstr).flatten).length +
      (chunks.map fun c => ((c.dropWhile (· != 0)).filter (· != 0)).length).sum := by
    induction chunks with
    | nil => rfl
    | cons c chunks ih =>
      simp only [List.flatten_cons, List.map_cons, List.filter_append, List.length_append,
        List.sum_cons]
      rw [ih, filter_eq_cstr_append c, List.length_append]
      omega
  -- Nothing is left out in total, so that nothing is left out of any chunk.
  constructor
  · intro h c hc
    rw [h] at hlen
    have hsum : (chunks.map fun c => ((c.dropWhile (· != 0)).filter (· != 0)).length).sum = 0 := by
      omega
    rw [List.sum_eq_zero_iff_forall_eq_nat] at hsum
    rw [padded_iff, ← List.length_eq_zero_iff]
    exact hsum _ (List.mem_map.mpr ⟨c, hc, rfl⟩)
  · intro h
    rw [List.filter_flatten]
    congr 1
    refine List.map_congr_left fun c hc => ?_
    rw [filter_eq_cstr_append c, (padded_iff c).mp (h c hc), List.append_nil]

/-- For every file, in both modes, and for every way of splitting the stream into chunks of 1 to
1024 bytes: the client's file is the server's exactly when the file has no NUL byte, no chunk goes
on with a nonzero byte after a NUL, and no chunk fills the buffer without a NUL. -/
theorem received_iff (op : Op) (file : List UInt8) (chunks : List (List UInt8))
    (hstream : chunks.flatten = serve op file)
    (hlen : ∀ c ∈ chunks, 1 ≤ c.length ∧ c.length ≤ bufSize) :
    receive chunks = some file ↔
      0 ∉ file ∧ ∀ c ∈ chunks, Padded c ∧ (c.length = bufSize → 0 ∈ c) := by
  have hnonzero : chunks.flatten.filter (· != 0) = file.filter (· != 0) := by
    rw [hstream]
    exact filter_serve op file
  rw [receive_eq_some_iff fun c hc => (hlen c hc).2]
  constructor
  · -- The client writes no NUL, so that the file has none, and all its bytes must survive.
    rintro ⟨hnul, hflat⟩
    have hfile : 0 ∉ file := by
      rw [← hflat]
      intro h
      obtain ⟨s, hs, h0⟩ := List.mem_flatten.mp h
      obtain ⟨c, -, rfl⟩ := List.mem_map.mp hs
      exact zero_notMem_cstr c h0
    have hpad := (flatten_cstr_eq_iff chunks).mp (by rw [hflat, hnonzero, filter_eq_self hfile])
    exact ⟨hfile, fun c hc => ⟨hpad c hc, hnul c hc⟩⟩
  · rintro ⟨hfile, hchunks⟩
    refine ⟨fun c hc => (hchunks c hc).2, ?_⟩
    rw [(flatten_cstr_eq_iff chunks).mpr fun c hc => (hchunks c hc).1, hnonzero,
      filter_eq_self hfile]

/-- `received_iff` for the file `"a\\nb"`, sent by `sendfile` and received in two chunks. -/
theorem received_iff_two_chunks :
    receive [[97], [10, 98]] = some [97, 10, 98] ↔
      0 ∉ ([97, 10, 98] : List UInt8) ∧
        ∀ c ∈ ([[97], [10, 98]] : List (List UInt8)), Padded c ∧ (c.length = bufSize → 0 ∈ c) :=
  received_iff .sendfile [97, 10, 98] [[97], [10, 98]] rfl (by decide)

/-- The file of the bytes `'a'`, NUL, and `'b'`, sent by `sendfile` and received in one chunk,
arrives as `"a"`. -/
theorem not_received_nul :
    serve .sendfile [97, 0, 98] = [[97, 0, 98]].flatten ∧
      receive [[97, 0, 98]] ≠ some [97, 0, 98] := by
  refine ⟨rfl, ?_⟩
  rw [ne_eq, receive_eq_some_iff (by decide)]
  rintro ⟨-, h⟩
  exact absurd h (by decide)

end CxxPandora.Sendfile
