import CxxPandora.Apue.Rot13.Model

/-!
# What is in the buffers and in the output

Each buffer that is used stands for one block of the input, and no two for the same one (`Inv`).
Where no buffer is still busy with a block that has been started, the output is the translated
input. When the program ends with `exit(0)` no buffer is used and all blocks have been started, so
that the output is complete, in whatever order the operations were carried out (`rot13_output`). The
program notices each operation that moves fewer bytes than it should, but for the read of the last
block.
-/

namespace CxxPandora.Apue.Rot13

open Lib

variable {infile : List UInt8} {s s' : Sys} {i : Fin NBUF} {b b' : Buf} {off p : ℕ}

/-! ## Buffers -/

/-- The length of the block that a buffer stands for. -/
def Buf.blockLength (infile : List UInt8) (b : Buf) : ℕ :=
  min BSZ (infile.length - b.aiocb.aio_offset)

/-- A place of the file belongs to the block of a buffer. -/
def Buf.Covers (b : Buf) (p : ℕ) : Prop :=
  b.aiocb.aio_offset ≤ p ∧ p < b.aiocb.aio_offset + BSZ

/-- The block of a buffer has not been written yet. -/
def Buf.Busy (b : Buf) : Prop :=
  match b.op with
  | .UNUSED => False
  | .READ_PENDING => True
  | .WRITE_PENDING => b.aiocb.status ≠ .done b.aiocb.aio_nbytes

/-- What is known of an operation from the call that has started it and what there is to move. -/
def Status.Ok (call : Call) (most : ℕ) (P : ℕ → Prop) : Status → Prop
  | .inProgress call' => call' = call
  | .failed => True
  | .done n => n ≤ most ∧ P n

/-- The operation and the bytes of a buffer. -/
def Buf.Holds (infile : List UInt8) (b : Buf) : Prop :=
  match b.op with
  | .UNUSED => ∃ n, b.aiocb.status = .done n
  | .READ_PENDING => b.aiocb.aio_nbytes = BSZ ∧
    b.aiocb.status.Ok .aio_read (b.blockLength infile) fun n =>
      (b.last = true → n = b.blockLength infile) ∧
        b.data.take n = readAt infile b.aiocb.aio_offset n
  | .WRITE_PENDING => b.aiocb.aio_nbytes = b.blockLength infile ∧
    b.data.take b.aiocb.aio_nbytes =
      (readAt infile b.aiocb.aio_offset b.aiocb.aio_nbytes).map translate ∧
    b.aiocb.status.Ok .aio_write b.aiocb.aio_nbytes fun _ => True

/-- A buffer stands for a block that has been started. -/
structure InFlight (infile : List UInt8) (off : ℕ) (b : Buf) : Prop where
  dvd : BSZ ∣ b.aiocb.aio_offset
  lt : b.aiocb.aio_offset < infile.length
  started : b.aiocb.aio_offset + BSZ ≤ off
  last : b.last = true ↔ infile.length ≤ b.aiocb.aio_offset + BSZ

/-! ## The invariant -/

/-- What holds of the program and the output at all times. -/
structure Inv (infile : List UInt8) (s : Sys) : Prop where
  list : ∀ i, s.aiolist i = true ↔ (s.bufs i).op ≠ .UNUSED
  numop : s.numop = (Finset.univ.filter fun i => (s.bufs i).op ≠ .UNUSED).card
  dvd : BSZ ∣ s.off
  holds : ∀ i, (s.bufs i).Holds infile
  unflagged : s.off < infile.length → ∀ i, (s.bufs i).last = false
  flight : ∀ i, (s.bufs i).op ≠ .UNUSED → InFlight infile s.off (s.bufs i)
  apart : ∀ i j, i ≠ j → (s.bufs i).op ≠ .UNUSED → (s.bufs j).op ≠ .UNUSED →
    (s.bufs i).aiocb.aio_offset ≠ (s.bufs j).aiocb.aio_offset
  out_le : s.outfile.length ≤ infile.length
  out : ∀ p < s.off, (∀ i, (s.bufs i).Busy → ¬(s.bufs i).Covers p) →
    s.outfile[p]? = (infile.map translate)[p]?
  ended : s.outcome = some .exited → s.numop = 0 ∧ infile.length ≤ s.off

/-- In front of the loop. -/
theorem inv_init : Inv infile Sys.init := by
  refine ⟨fun _ => iff_of_false Bool.false_ne_true fun h => h rfl, ?_, ⟨0, rfl⟩,
    fun _ => ⟨0, rfl⟩, fun _ _ => rfl, fun _ h => absurd rfl h, fun _ _ _ h => absurd rfl h,
    Nat.zero_le _, fun p hp => absurd hp (Nat.not_lt_zero p),
    fun h => absurd h.symm (Option.some_ne_none _)⟩
  have hempty : (Finset.univ.filter fun i : Fin NBUF => (Sys.init.bufs i).op ≠ .UNUSED) = ∅ :=
    Finset.filter_eq_empty_iff.mpr fun _ _ h => h rfl
  rw [hempty]
  rfl

/-- No buffer is used when the program has counted none. -/
theorem Inv.unused (h : Inv infile s) (hnumop : s.numop = 0) (i : Fin NBUF) :
    (s.bufs i).op = .UNUSED := by
  have hcard := h.numop
  rw [hnumop] at hcard
  have hempty := Finset.card_eq_zero.mp (Int.ofNat_eq_zero.mp hcard.symm)
  by_contra hop
  exact Finset.filter_eq_empty_iff.mp hempty (Finset.mem_univ i) hop

/-- The output at the end. -/
theorem Inv.outfile_eq (h : Inv infile s) (hend : s.outcome = some .exited) :
    s.outfile = infile.map translate := by
  obtain ⟨hnumop, hoff⟩ := h.ended hend
  refine List.ext_getElem? fun p => ?_
  by_cases hp : p < s.off
  · refine h.out p hp fun i hbusy => ?_
    unfold Buf.Busy at hbusy
    rw [h.unused hnumop i] at hbusy
    exact hbusy.elim
  · have hle := h.out_le
    rw [List.getElem?_eq_none (by omega), List.getElem?_eq_none (by rw [List.length_map]; omega)]

/-- A buffer goes on with its block, and the output changes in this block alone. -/
theorem Inv.replace (h : Inv infile s) (b' : Buf) (hop : (s.bufs i).op ≠ .UNUSED)
    (hop' : b'.op ≠ .UNUSED)
    (hoffset : b'.aiocb.aio_offset = (s.bufs i).aiocb.aio_offset)
    (hlast : b'.last = (s.bufs i).last) (hholds : b'.Holds infile) {outfile : List UInt8}
    (hle : outfile.length ≤ infile.length)
    (hout : ∀ p < s.off, (b'.Busy → ¬b'.Covers p) →
      (∀ j, j ≠ i → (s.bufs j).Busy → ¬(s.bufs j).Covers p) →
      outfile[p]? = (infile.map translate)[p]?) :
    Inv infile { s with bufs := Function.update s.bufs i b', outfile := outfile } := by
  have hops : ∀ j, (Function.update s.bufs i b' j).op ≠ .UNUSED ↔ (s.bufs j).op ≠ .UNUSED := by
    intro j
    by_cases hj : j = i
    · subst hj
      rw [Function.update_self]
      exact iff_of_true hop' hop
    · rw [Function.update_of_ne hj]
  have hoffsets : ∀ j, (Function.update s.bufs i b' j).aiocb.aio_offset =
      (s.bufs j).aiocb.aio_offset := by
    intro j
    by_cases hj : j = i
    · subst hj
      rw [Function.update_self, hoffset]
    · rw [Function.update_of_ne hj]
  have hlasts : ∀ j, (Function.update s.bufs i b' j).last = (s.bufs j).last := by
    intro j
    by_cases hj : j = i
    · subst hj
      rw [Function.update_self, hlast]
    · rw [Function.update_of_ne hj]
  refine { h with
    list := fun j => ?_, numop := ?_, holds := fun j => ?_, unflagged := fun hlt j => ?_
    flight := fun j hj => ?_, apart := fun j k hjk hj hk => ?_, out_le := hle
    out := fun p hp hfree => hout p hp ?_ fun j hj => ?_ }
  · exact (h.list j).trans (hops j).symm
  · rw [h.numop]
    exact congrArg _ (congrArg Finset.card (Finset.filter_congr fun j _ => (hops j).symm))
  · show (Function.update s.bufs i b' j).Holds infile
    by_cases hj : j = i
    · rw [hj, Function.update_self]
      exact hholds
    · rw [Function.update_of_ne hj]
      exact h.holds j
  · exact (hlasts j).trans (h.unflagged hlt j)
  · have hflight := h.flight j ((hops j).mp hj)
    show InFlight infile s.off (Function.update s.bufs i b' j)
    refine ⟨?_, ?_, ?_, ?_⟩ <;> rw [hoffsets j]
    · exact hflight.dvd
    · exact hflight.lt
    · exact hflight.started
    · rw [hlasts j]
      exact hflight.last
  · show (Function.update s.bufs i b' j).aiocb.aio_offset ≠
      (Function.update s.bufs i b' k).aiocb.aio_offset
    rw [hoffsets j, hoffsets k]
    exact h.apart j k hjk ((hops j).mp hj) ((hops k).mp hk)
  · have hi : (Function.update s.bufs i b' i).Busy → ¬(Function.update s.bufs i b' i).Covers p :=
      hfree i
    rwa [Function.update_self] at hi
  · have hj' : (Function.update s.bufs i b' j).Busy → ¬(Function.update s.bufs i b' j).Covers p :=
      hfree j
    rwa [Function.update_of_ne hj] at hj'

/-- The same when the output does not change. -/
theorem Inv.replace_busy (h : Inv infile s) (b' : Buf) (hop : (s.bufs i).op ≠ .UNUSED)
    (hop' : b'.op ≠ .UNUSED)
    (hoffset : b'.aiocb.aio_offset = (s.bufs i).aiocb.aio_offset)
    (hlast : b'.last = (s.bufs i).last) (hholds : b'.Holds infile)
    (hbusy : (s.bufs i).Busy → b'.Busy) :
    Inv infile { s with bufs := Function.update s.bufs i b' } := by
  refine h.replace b' hop hop' hoffset hlast hholds h.out_le fun p hp hfree hother => h.out p hp ?_
  intro j hj hcovers
  by_cases hji : j = i
  · subst hji
    exact hfree (hbusy hj) (by unfold Buf.Covers at hcovers ⊢; rwa [hoffset])
  · exact hother j hji hj hcovers

/-! ## The steps of the program -/

/-- A program that gives up leaves everything as it is. -/
theorem Inv.quit (h : Inv infile s) : Inv infile { s with outcome := some .quit } :=
  { h with ended := fun heq => absurd (Option.some.inj heq) (by decide) }

/-- The next buffer that is looked at. -/
theorem Inv.at (h : Inv infile s) (n : ℕ) : Inv infile { s with i := n } := { h with }

/-- The read of the next block. -/
theorem Inv.startRead (h : Inv infile s) (hop : (s.bufs i).op = .UNUSED)
    (hend : s.outcome = none) : Inv infile (s.startRead infile i) := by
  unfold Sys.startRead
  split_ifs with hlt
  swap
  · exact h
  have hflag := h.unflagged hlt i
  obtain ⟨b', hb'⟩ : ∃ b' : Buf, b' = { s.bufs i with
      op := .READ_PENDING
      last := (s.bufs i).last || s.off + BSZ ≥ infile.length
      aiocb := ⟨s.off, BSZ, .inProgress .aio_read⟩ } := ⟨_, rfl⟩
  rw [← hb']
  have hops : ∀ j, (Function.update s.bufs i b' j).op ≠ .UNUSED ↔
      j = i ∨ (s.bufs j).op ≠ .UNUSED := by
    intro j
    by_cases hj : j = i
    · subst hj
      rw [Function.update_self, hb']
      exact iff_of_true (fun heq => Rwop.noConfusion heq) (Or.inl rfl)
    · rw [Function.update_of_ne hj, or_iff_right hj]
  have hself : Function.update s.bufs i b' i = b' := Function.update_self ..
  have hother : ∀ j, j ≠ i → Function.update s.bufs i b' j = s.bufs j :=
    fun j hj => Function.update_of_ne hj ..
  -- Blocks that have been started lie in front of the new one.
  have hbefore : ∀ j, (s.bufs j).op ≠ .UNUSED → (s.bufs j).aiocb.aio_offset < s.off := by
    intro j hj
    have hstarted := (h.flight j hj).started
    have hpos := BSZ_pos
    omega
  refine {
    list := fun j => ?_, numop := ?_, dvd := Nat.dvd_add h.dvd (Nat.dvd_refl _)
    holds := fun j => ?_, unflagged := fun hlt' j => ?_, flight := fun j hj => ?_
    apart := fun j k hjk hj hk => ?_, out_le := h.out_le, out := fun p hp hfree => ?_
    ended := fun heq => absurd (hend.symm.trans heq) (Option.some_ne_none _).symm }
  · show Function.update s.aiolist i true j = true ↔ _
    rw [hops j]
    by_cases hj : j = i
    · subst hj
      rw [Function.update_self]
      exact iff_of_true rfl (Or.inl rfl)
    · rw [Function.update_of_ne hj, or_iff_right hj]
      exact h.list j
  · have hset : (Finset.univ.filter fun j => (Function.update s.bufs i b' j).op ≠ .UNUSED) =
        insert i (Finset.univ.filter fun j => (s.bufs j).op ≠ .UNUSED) := by
      ext j
      rw [Finset.mem_insert, Finset.mem_filter, Finset.mem_filter, hops j]
      exact ⟨fun hj => hj.2.imp_right fun hj => ⟨Finset.mem_univ j, hj⟩,
        fun hj => ⟨Finset.mem_univ j, hj.imp_right And.right⟩⟩
    have hnot : i ∉ Finset.univ.filter fun j => (s.bufs j).op ≠ .UNUSED :=
      fun hi => (Finset.mem_filter.mp hi).2 hop
    show s.numop + 1 = _
    rw [hset, Finset.card_insert_of_notMem hnot, h.numop]
    rfl
  · show (Function.update s.bufs i b' j).Holds infile
    by_cases hj : j = i
    · rw [hj, hself, hb']
      exact ⟨rfl, rfl⟩
    · rw [hother j hj]
      exact h.holds j
  · show (Function.update s.bufs i b' j).last = false
    have hlt'' : ¬s.off + BSZ ≥ infile.length := Nat.not_le.mpr hlt'
    by_cases hj : j = i
    · rw [hj, hself, hb']
      show ((s.bufs i).last || decide (s.off + BSZ ≥ infile.length)) = false
      rw [hflag, Bool.false_or, decide_eq_false hlt'']
    · rw [hother j hj]
      exact h.unflagged hlt j
  · show InFlight infile (s.off + BSZ) (Function.update s.bufs i b' j)
    by_cases hji : j = i
    · rw [hji, hself, hb']
      refine ⟨h.dvd, hlt, Nat.le_refl _, ?_⟩
      show ((s.bufs i).last || decide (s.off + BSZ ≥ infile.length)) = true ↔ _
      rw [hflag, Bool.false_or, decide_eq_true_iff]
    · rw [hother j hji]
      have hflight := h.flight j (((hops j).mp hj).resolve_left hji)
      exact ⟨hflight.dvd, hflight.lt, Nat.le_add_right_of_le hflight.started, hflight.last⟩
  · show (Function.update s.bufs i b' j).aiocb.aio_offset ≠
      (Function.update s.bufs i b' k).aiocb.aio_offset
    have hnew : b'.aiocb.aio_offset = s.off := by rw [hb']
    by_cases hji : j = i
    · have hki : k ≠ i := fun heq => hjk (hji.trans heq.symm)
      rw [hji, hself, hother k hki, hnew]
      exact (hbefore k (((hops k).mp hk).resolve_left hki)).ne'
    · rw [hother j hji]
      by_cases hki : k = i
      · rw [hki, hself, hnew]
        exact (hbefore j (((hops j).mp hj).resolve_left hji)).ne
      · rw [hother k hki]
        exact h.apart j k hjk (((hops j).mp hj).resolve_left hji)
          (((hops k).mp hk).resolve_left hki)
  · have hfree' : ∀ j, (Function.update s.bufs i b' j).Busy →
        ¬(Function.update s.bufs i b' j).Covers p := hfree
    have hp' : p < s.off := by
      by_contra hge
      have hi := hfree' i
      rw [hself, hb'] at hi
      exact hi trivial ⟨Nat.not_lt.mp hge, hp⟩
    refine h.out p hp' fun j hj => ?_
    have hj' := hfree' j
    by_cases hji : j = i
    · unfold Buf.Busy at hj
      rw [hji, hop] at hj
      exact hj.elim
    · rw [hother j hji] at hj'
      exact hj' hj

/-- What a buffer holds that is being read into. -/
theorem Inv.reading (h : Inv infile s) (hop : (s.bufs i).op = .READ_PENDING) :
    (s.bufs i).aiocb.aio_nbytes = BSZ ∧
      (s.bufs i).aiocb.status.Ok .aio_read ((s.bufs i).blockLength infile) fun n =>
        ((s.bufs i).last = true → n = (s.bufs i).blockLength infile) ∧
          (s.bufs i).data.take n = readAt infile (s.bufs i).aiocb.aio_offset n := by
  have hholds := h.holds i
  unfold Buf.Holds at hholds
  rwa [hop] at hholds

/-- What a buffer holds that is being written. -/
theorem Inv.writing (h : Inv infile s) (hop : (s.bufs i).op = .WRITE_PENDING) :
    (s.bufs i).aiocb.aio_nbytes = (s.bufs i).blockLength infile ∧
      (s.bufs i).data.take (s.bufs i).aiocb.aio_nbytes =
        (readAt infile (s.bufs i).aiocb.aio_offset (s.bufs i).aiocb.aio_nbytes).map translate ∧
      (s.bufs i).aiocb.status.Ok .aio_write (s.bufs i).aiocb.aio_nbytes fun _ => True := by
  have hholds := h.holds i
  unfold Buf.Holds at hholds
  rwa [hop] at hholds

/-- A read that has not been noticed to be short has read the whole block. -/
theorem Inv.eq_blockLength (h : Inv infile s) (hop : (s.bufs i).op = .READ_PENDING) {n : ℕ}
    (hstatus : (s.bufs i).aiocb.status = .done n)
    (hlong : ¬(n ≠ BSZ ∧ (s.bufs i).last = false)) : n = (s.bufs i).blockLength infile := by
  obtain ⟨-, hok⟩ := h.reading hop
  rw [hstatus] at hok
  obtain ⟨hle, hlast, -⟩ := hok
  cases hl : (s.bufs i).last with
  | true => exact hlast hl
  | false =>
    have hn : n = BSZ := by
      by_contra hne
      exact hlong ⟨hne, hl⟩
    unfold Buf.blockLength at hle ⊢
    omega

/-- The write of a block that has been read. -/
theorem Inv.startWrite (h : Inv infile s) (hop : (s.bufs i).op = .READ_PENDING) :
    Inv infile (s.startWrite i) := by
  have hreading := h.reading hop
  unfold Sys.startWrite
  cases hstatus : (s.bufs i).aiocb.status with
  | inProgress call => exact h
  | failed => exact h.quit
  | done n =>
    show Inv infile (if _ then _ else _)
    split_ifs with hshort
    · exact h.quit
    · have hn := h.eq_blockLength hop hstatus hshort
      rw [hstatus] at hreading
      obtain ⟨-, -, -, hdata⟩ := hreading
      have hlength : (readAt infile (s.bufs i).aiocb.aio_offset n).length = n := by
        rw [length_readAt, hn]
        unfold Buf.blockLength
        omega
      refine h.replace_busy _ (by rw [hop]; exact fun heq => Rwop.noConfusion heq)
        (fun heq => Rwop.noConfusion heq) rfl rfl ⟨hn, ?_, rfl⟩ fun _ => ?_
      · show (((s.bufs i).data.take n).map translate ++ (s.bufs i).data.drop n).take n = _
        rw [hdata]
        exact List.take_left' (by rw [List.length_map, hlength])
      · exact fun heq => Status.noConfusion heq

/-- A buffer whose block has been written can be used again. -/
theorem Inv.release (h : Inv infile s) (hop : (s.bufs i).op = .WRITE_PENDING)
    (hend : s.outcome = none) : Inv infile (s.release i) := by
  unfold Sys.release
  cases hstatus : (s.bufs i).aiocb.status with
  | inProgress call => exact h
  | failed => exact h.quit
  | done n =>
    show Inv infile (if _ then _ else _)
    split_ifs with hshort
    · exact h.quit
    have hfull : (s.bufs i).aiocb.status = .done (s.bufs i).aiocb.aio_nbytes := by
      rw [hstatus, not_not.mp hshort]
    obtain ⟨b', hb'⟩ : ∃ b' : Buf, b' = { s.bufs i with op := .UNUSED } := ⟨_, rfl⟩
    rw [← hb']
    have hself : Function.update s.bufs i b' i = b' := Function.update_self ..
    have hother : ∀ j, j ≠ i → Function.update s.bufs i b' j = s.bufs j :=
      fun j hj => Function.update_of_ne hj ..
    have hops : ∀ j, (Function.update s.bufs i b' j).op ≠ .UNUSED ↔
        j ≠ i ∧ (s.bufs j).op ≠ .UNUSED := by
      intro j
      by_cases hj : j = i
      · rw [hj, hself, hb']
        exact iff_of_false (fun hne => hne rfl) fun hne => hne.1 rfl
      · rw [hother j hj]
        exact (and_iff_right hj).symm
    have hused : (s.bufs i).op ≠ .UNUSED := by
      rw [hop]
      exact fun heq => Rwop.noConfusion heq
    refine { h with
      list := fun j => ?_, numop := ?_, holds := fun j => ?_, unflagged := fun hlt j => ?_
      flight := fun j hj => ?_, apart := fun j k hjk hj hk => ?_, out := fun p hp hfree => ?_
      ended := fun heq => absurd (hend.symm.trans heq) (Option.some_ne_none _).symm }
    · show Function.update s.aiolist i false j = true ↔ _
      rw [hops j]
      by_cases hj : j = i
      · rw [hj, Function.update_self]
        exact iff_of_false Bool.false_ne_true fun hne => hne.1 rfl
      · rw [Function.update_of_ne hj, and_iff_right hj]
        exact h.list j
    · have hset : (Finset.univ.filter fun j => (Function.update s.bufs i b' j).op ≠ .UNUSED) =
          (Finset.univ.filter fun j => (s.bufs j).op ≠ .UNUSED).erase i := by
        ext j
        rw [Finset.mem_erase, Finset.mem_filter, Finset.mem_filter, hops j]
        exact ⟨fun hj => ⟨hj.2.1, hj.1, hj.2.2⟩, fun hj => ⟨hj.2.1, hj.1, hj.2.2⟩⟩
      have hmem : i ∈ Finset.univ.filter fun j => (s.bufs j).op ≠ .UNUSED :=
        Finset.mem_filter.mpr ⟨Finset.mem_univ i, hused⟩
      have hcard := Finset.card_erase_add_one hmem
      show s.numop - 1 = _
      rw [hset, h.numop]
      omega
    · show (Function.update s.bufs i b' j).Holds infile
      by_cases hj : j = i
      · rw [hj, hself, hb']
        exact ⟨n, hstatus⟩
      · rw [hother j hj]
        exact h.holds j
    · show (Function.update s.bufs i b' j).last = false
      by_cases hj : j = i
      · rw [hj, hself, hb']
        exact h.unflagged hlt i
      · rw [hother j hj]
        exact h.unflagged hlt j
    · obtain ⟨hji, hj⟩ := (hops j).mp hj
      show InFlight infile s.off (Function.update s.bufs i b' j)
      rw [hother j hji]
      exact h.flight j hj
    · obtain ⟨hji, hj⟩ := (hops j).mp hj
      obtain ⟨hki, hk⟩ := (hops k).mp hk
      show (Function.update s.bufs i b' j).aiocb.aio_offset ≠
        (Function.update s.bufs i b' k).aiocb.aio_offset
      rw [hother j hji, hother k hki]
      exact h.apart j k hjk hj hk
    · refine h.out p hp fun j hj => ?_
      have hj' : (Function.update s.bufs i b' j).Busy →
          ¬(Function.update s.bufs i b' j).Covers p := hfree j
      by_cases hji : j = i
      · unfold Buf.Busy at hj
        rw [hji, hop] at hj
        exact absurd hfull hj
      · rw [hother j hji] at hj'
        exact hj' hj

/-! ## The operations -/

/-- A buffer with an operation in progress is used. -/
theorem Inv.used (h : Inv infile s) {call : Call}
    (hstatus : (s.bufs i).aiocb.status = .inProgress call) : (s.bufs i).op ≠ .UNUSED := by
  intro hop
  have hholds := h.holds i
  unfold Buf.Holds at hholds
  rw [hop] at hholds
  obtain ⟨n, hn⟩ := hholds
  exact Status.noConfusion (hn.symm.trans hstatus)

/-- A buffer with a read in progress is one that is being read into. -/
theorem Inv.op_read (h : Inv infile s)
    (hstatus : (s.bufs i).aiocb.status = .inProgress .aio_read) :
    (s.bufs i).op = .READ_PENDING := by
  cases hop : (s.bufs i).op with
  | UNUSED => exact absurd hop (h.used hstatus)
  | READ_PENDING => rfl
  | WRITE_PENDING =>
    obtain ⟨-, -, hok⟩ := h.writing hop
    rw [hstatus] at hok
    exact Call.noConfusion (show Call.aio_read = .aio_write from hok)

/-- A buffer with a write in progress is one that is being written. -/
theorem Inv.op_write (h : Inv infile s)
    (hstatus : (s.bufs i).aiocb.status = .inProgress .aio_write) :
    (s.bufs i).op = .WRITE_PENDING := by
  cases hop : (s.bufs i).op with
  | UNUSED => exact absurd hop (h.used hstatus)
  | READ_PENDING =>
    obtain ⟨-, hok⟩ := h.reading hop
    rw [hstatus] at hok
    exact Call.noConfusion (show Call.aio_write = .aio_read from hok)
  | WRITE_PENDING => rfl

/-- An operation that fails. -/
theorem Inv.fail (h : Inv infile s) {call : Call}
    (hstatus : (s.bufs i).aiocb.status = .inProgress call) :
    Inv infile { s with bufs := Function.update s.bufs i ((s.bufs i).over .failed) } := by
  have hused := h.used hstatus
  refine h.replace_busy ((s.bufs i).over .failed) hused hused rfl rfl ?_ fun hbusy => ?_
  · cases hop : (s.bufs i).op with
    | UNUSED => exact absurd hop hused
    | READ_PENDING =>
      unfold Buf.Holds Buf.over
      rw [hop]
      exact ⟨(h.reading hop).1, trivial⟩
    | WRITE_PENDING =>
      unfold Buf.Holds Buf.over
      rw [hop]
      exact ⟨(h.writing hop).1, (h.writing hop).2.1, trivial⟩
  · unfold Buf.Busy Buf.over at *
    cases hop : (s.bufs i).op with
    | UNUSED => exact absurd hop hused
    | READ_PENDING => exact trivial
    | WRITE_PENDING => exact fun heq => Status.noConfusion heq

/-- A read that is carried out. -/
theorem Inv.read (h : Inv infile s)
    (hstatus : (s.bufs i).aiocb.status = .inProgress .aio_read) {n : ℕ}
    (hn : n ≤ (s.bufs i).available infile .aio_read)
    (hlast : (s.bufs i).last = true → n = (s.bufs i).available infile .aio_read) :
    Inv infile { s with
      bufs := Function.update s.bufs i { (s.bufs i).over (.done n) with
        data := readAt infile (s.bufs i).aiocb.aio_offset n ++ (s.bufs i).data.drop n } } := by
  have hop := h.op_read hstatus
  have hused := h.used hstatus
  obtain ⟨hnbytes, -⟩ := h.reading hop
  have havailable : (s.bufs i).available infile .aio_read = (s.bufs i).blockLength infile := by
    unfold Buf.available Buf.blockLength
    rw [hnbytes]
  rw [havailable] at hn hlast
  have hlength : (readAt infile (s.bufs i).aiocb.aio_offset n).length = n := by
    rw [length_readAt]
    unfold Buf.blockLength at hn
    omega
  refine h.replace_busy { (s.bufs i).over (.done n) with
    data := readAt infile (s.bufs i).aiocb.aio_offset n ++ (s.bufs i).data.drop n } hused hused rfl
    rfl ?_ fun _ => ?_
  · unfold Buf.Holds Buf.over
    rw [hop]
    exact ⟨hnbytes, hn, hlast, List.take_left' hlength⟩
  · unfold Buf.Busy Buf.over
    rw [hop]
    exact trivial

/-- A write that is carried out. -/
theorem Inv.write (h : Inv infile s)
    (hstatus : (s.bufs i).aiocb.status = .inProgress .aio_write) {n : ℕ}
    (hn : n ≤ (s.bufs i).available infile .aio_write) :
    Inv infile { s with
      bufs := Function.update s.bufs i ((s.bufs i).over (.done n))
      outfile := if n = 0 then s.outfile
        else writeAt s.outfile (s.bufs i).aiocb.aio_offset ((s.bufs i).data.take n) } := by
  have hop := h.op_write hstatus
  have hused := h.used hstatus
  have hlt := (h.flight i hused).lt
  obtain ⟨hnbytes, hdata, -⟩ := h.writing hop
  have hle : n ≤ (s.bufs i).aiocb.aio_nbytes := hn
  have hroom : (s.bufs i).aiocb.aio_offset + n ≤ (infile.map translate).length := by
    rw [List.length_map]
    unfold Buf.blockLength at hnbytes
    omega
  -- What is written is a piece of the translated input.
  have hpiece : (s.bufs i).data.take n =
      readAt (infile.map translate) (s.bufs i).aiocb.aio_offset n := by
    calc (s.bufs i).data.take n = ((s.bufs i).data.take (s.bufs i).aiocb.aio_nbytes).take n := by
          rw [List.take_take, Nat.min_eq_left hle]
      _ = (readAt (infile.map translate) (s.bufs i).aiocb.aio_offset
            (s.bufs i).aiocb.aio_nbytes).take n := by rw [hdata, readAt_map]
      _ = readAt (infile.map translate) (s.bufs i).aiocb.aio_offset n := by
          rw [readAt, readAt, List.take_take, Nat.min_eq_left hle]
  have hout_le : s.outfile.length ≤ (infile.map translate).length := by
    rw [List.length_map]
    exact h.out_le
  rw [hpiece]
  refine h.replace ((s.bufs i).over (.done n)) hused hused rfl rfl ?_ ?_
    fun p hp hfree hother => ?_
  · unfold Buf.Holds Buf.over
    rw [hop]
    exact ⟨hnbytes, hdata, hle, trivial⟩
  · split_ifs with hzero
    · exact h.out_le
    · have hlen := length_writeAt_readAt_le (n := n) hout_le (Nat.le_of_add_right_le hroom)
      rwa [List.length_map] at hlen
  · have hagree : s.outfile[p]? = (infile.map translate)[p]? ∨
        (s.bufs i).aiocb.aio_offset ≤ p ∧ p < (s.bufs i).aiocb.aio_offset + n := by
      by_cases hcovers : (s.bufs i).Covers p
      · -- The block has been written, so that the place is in it or behind the end of the file.
        have hfull : n = (s.bufs i).aiocb.aio_nbytes := by
          by_contra hne
          refine hfree ?_ hcovers
          unfold Buf.Busy Buf.over
          rw [hop]
          exact fun heq => hne (Status.done.inj heq)
        obtain ⟨hge, hlt⟩ := hcovers
        by_cases hin : p < (s.bufs i).aiocb.aio_offset + n
        · exact Or.inr ⟨hge, hin⟩
        · have hend : infile.length ≤ p := by
            unfold Buf.blockLength at hnbytes
            omega
          have hout := h.out_le
          refine Or.inl ?_
          rw [List.getElem?_eq_none (by omega),
            List.getElem?_eq_none (by rw [List.length_map]; exact hend)]
      · refine Or.inl (h.out p hp fun j hj => ?_)
        by_cases hji : j = i
        · rw [hji]
          exact hcovers
        · exact hother j hji hj
    split_ifs with hzero
    · exact hagree.resolve_right fun hin => by omega
    · exact getElem?_writeAt_readAt hout_le hroom hagree

/-! ## Runs -/

/-- The read of the last block reads all of it, which is the one thing that the program cannot
check. -/
def LastRead (infile : List UInt8) (s : Sys) : Act → Prop
  | .complete i (.bytes n) => (s.bufs i).aiocb.status = .inProgress .aio_read →
    (s.bufs i).last = true → n = (s.bufs i).available infile .aio_read
  | .complete _ .error => True
  | .go => True

/-- Whether it does. -/
instance instDecidableLastRead (infile : List UInt8) (s : Sys) :
    (a : Act) → Decidable (LastRead infile s a)
  | .complete i (.bytes n) =>
    inferInstanceAs (Decidable ((s.bufs i).aiocb.status = .inProgress .aio_read →
      (s.bufs i).last = true → n = (s.bufs i).available infile .aio_read))
  | .complete _ .error => .isTrue trivial
  | .go => .isTrue trivial

/-- The program looks at a buffer. -/
theorem Inv.examine (h : Inv infile s) (hend : s.outcome = none) (i : Fin NBUF) :
    Inv infile (s.examine infile i) := by
  unfold Sys.examine
  cases hop : (s.bufs i).op with
  | UNUSED => exact h.startRead hop hend
  | READ_PENDING => exact h.startWrite hop
  | WRITE_PENDING => exact h.release hop hend

/-- A step of the program keeps the invariant. -/
theorem Inv.go (h : Inv infile s) (hgo : s.go infile = some s') : Inv infile s' := by
  unfold Sys.go at hgo
  split_ifs at hgo with hend hi hnumop hoff hover
  · obtain rfl := Option.some.inj hgo
    exact (h.examine (Option.not_isSome_iff_eq_none.mp hend) _).at _
  · obtain rfl := Option.some.inj hgo
    exact { h with ended := fun _ => ⟨hnumop, hoff⟩ }
  · obtain rfl := Option.some.inj hgo
    exact h.at 0
  · obtain rfl := Option.some.inj hgo
    exact h.at 0

/-- What the system does keeps the invariant. -/
theorem Inv.complete (h : Inv infile s) {r : Result} (hlast : LastRead infile s (.complete i r))
    (hstep : s.complete infile i r = some s') : Inv infile s' := by
  unfold Sys.complete at hstep
  split at hstep
  · rename_i hstatus
    obtain rfl := Option.some.inj hstep
    exact h.fail hstatus
  · rename_i n hstatus
    split_ifs at hstep with hn
    obtain rfl := Option.some.inj hstep
    exact h.read hstatus hn (hlast hstatus)
  · rename_i n hstatus
    by_cases hn : n ≤ (s.bufs i).available infile .aio_write
    · rw [if_pos hn] at hstep
      obtain rfl := Option.some.inj hstep
      exact h.write hstatus hn
    · rw [if_neg hn] at hstep
      exact absurd hstep.symm (Option.some_ne_none s')
  · exact absurd hstep.symm (Option.some_ne_none s')
  · exact absurd hstep.symm (Option.some_ne_none s')

/-- All steps keep the invariant. -/
theorem Inv.step (h : Inv infile s) {a : Act} (hlast : LastRead infile s a)
    (hstep : step infile s a = some s') : Inv infile s' := by
  cases a with
  | go => exact h.go hstep
  | complete i r => exact h.complete hlast hstep

/-- In every run in which the last block is read as a whole. -/
theorem Inv.of_run {es : List Act}
    (hrun : Run (Rot13.step infile) (LastRead infile) Sys.init es s) :
    Inv infile s :=
  hrun.invariant inv_init fun _ _ _ h hlast hstep => h.step hlast hstep

/-- When the program ends with `exit(0)`, the output is the translated input, whatever the order is
in which the operations were carried out and however many bytes each of them has moved, if only the
last block was read as a whole; and the translated output is the input. -/
theorem rot13_output {es : List Act}
    (hrun : Run (Rot13.step infile) (LastRead infile) Sys.init es s)
    (hexit : s.outcome = some .exited) :
    s.outfile = infile.map translate ∧ s.outfile.map translate = infile := by
  have hout := (Inv.of_run hrun).outfile_eq hexit
  refine ⟨hout, ?_⟩
  rw [hout, List.map_map]
  calc infile.map (translate ∘ translate) = infile.map id :=
        List.map_congr_left fun c _ => translate_translate c
    _ = infile := List.map_id infile

/-- Two bytes, which are read and written while the program looks at other buffers. -/
theorem rot13_output_two : ∃ es s, Run (Rot13.step [72, 105]) (LastRead [72, 105]) Sys.init es s ∧
    s.outcome = some .exited ∧ s.outfile = [85, 118] := by
  obtain ⟨es, hes⟩ : ∃ es : List Act, es = [.go, .go, .go, .complete ⟨0, by decide⟩ (.bytes 2)] ++
    List.replicate 7 .go ++ [.complete ⟨0, by decide⟩ (.bytes 2)] ++ List.replicate 17 .go :=
    ⟨_, rfl⟩
  have hexec : ((exec (restrict (Rot13.step [72, 105]) (LastRead [72, 105])) Sys.init es).any
      fun s => s.outcome = some .exited) = true := by
    rw [hes]
    decide +kernel
  obtain ⟨s, hs, hexit⟩ := (Option.any_eq_true _ _).mp hexec
  have hrun := Run.of_exec_restrict hs
  have hexit' := of_decide_eq_true hexit
  have htext : ([72, 105] : List UInt8).map translate = [85, 118] := by decide
  exact ⟨es, s, hrun, hexit', (rot13_output hrun hexit').1.trans htext⟩

end CxxPandora.Apue.Rot13
