import CxxPandora.Apue.Rot13.Pipeline
import CxxPandora.Lib.Tally

/-!
# The program comes to its end

Each pass of the inner loop over a buffer that is ready brings a block nearer to its end, and the
program waits in `aio_suspend` only when that makes a buffer ready for the next pass. A measure that
each step lowers, of the program or of the system, bounds the length of all runs (`Sys.toGo`). When
the system moves all the bytes that it is asked to, the program comes to its `exit(0)`, with the
output complete (`rot13_ends`).
-/

namespace CxxPandora.Apue.Rot13

open Lib

variable {infile : List UInt8} {s s' : Sys} {i : Fin NBUF} {b b' : Buf}

/-! ## A measure -/

/-- What remains to be done with a block, from the use of the buffer and from whether its operation
is over. -/
def weightOf : Rwop → Bool → ℕ
  | .UNUSED, _ => 0
  | .READ_PENDING, false => 42
  | .READ_PENDING, true => 41
  | .WRITE_PENDING, false => 21
  | .WRITE_PENDING, true => 20

/-- What remains to be done with the block of a buffer. -/
def Buf.weight (b : Buf) : ℕ := weightOf b.op b.isOver

/-- The number of blocks of so many bytes. -/
def blocks (n : ℕ) : ℕ := (n + (BSZ - 1)) / BSZ

/-- What remains to be done with all blocks. -/
def Sys.load (infile : List UInt8) (s : Sys) : ℕ :=
  62 * blocks (infile.length - s.off) + ∑ i, (s.bufs i).weight

/-- The program can do something with a buffer. -/
def Sys.Ready (infile : List UInt8) (s : Sys) (i : Fin NBUF) : Prop :=
  (s.bufs i).op = .UNUSED ∧ s.off < infile.length ∨
    (s.bufs i).op ≠ .UNUSED ∧ (s.bufs i).isOver = true

/-- Whether it can. -/
instance instDecidableReady (infile : List UInt8) (s : Sys) (i : Fin NBUF) :
    Decidable (s.Ready infile i) :=
  inferInstanceAs (Decidable ((s.bufs i).op = .UNUSED ∧ s.off < infile.length ∨
    (s.bufs i).op ≠ .UNUSED ∧ (s.bufs i).isOver = true))

/-- What remains of the passes of the inner loop; one more is to come when there is nothing to do in
this one. -/
def Sys.rest (infile : List UInt8) (s : Sys) : ℕ :=
  if s.outcome.isSome then 0
  else NBUF - s.i + if ∃ i : Fin NBUF, s.i ≤ i ∧ s.Ready infile i then 0 else NBUF + 1

/-- What each step lowers. -/
def Sys.toGo (infile : List UInt8) (s : Sys) : ℕ := s.load infile + s.rest infile

/-- One buffer changes. -/
theorem sum_weight_update (bufs : Fin NBUF → Buf) (i : Fin NBUF) (b' : Buf) :
    ∑ j, (Function.update bufs i b' j).weight + (bufs i).weight =
      ∑ j, (bufs j).weight + b'.weight := by
  have hupdate : (fun j => (Function.update bufs i b' j).weight) =
      Function.update (fun j => (bufs j).weight) i b'.weight :=
    Function.comp_update Buf.weight bufs i b'
  rw [hupdate]
  exact sum_update_add _ i _

/-- One more block has been started. -/
theorem blocks_add (h : s.off < infile.length) :
    blocks (infile.length - (s.off + BSZ)) + 1 = blocks (infile.length - s.off) := by
  unfold blocks BSZ
  omega

/-- The load when one buffer has changed. -/
theorem load_update (infile : List UInt8) {t : Sys} (hoff : t.off = s.off)
    (hbufs : t.bufs = Function.update s.bufs i b') {w : ℕ} (hweight : b'.weight = w) :
    t.load infile + (s.bufs i).weight = s.load infile + w := by
  have hsum := sum_weight_update s.bufs i b'
  unfold Sys.load
  rw [hoff, hbufs]
  omega

/-! ## The steps -/

/-- Nothing happens to a buffer that is not ready. -/
theorem examine_of_not_ready (h : ¬s.Ready infile i) : s.examine infile i = s := by
  obtain ⟨hunused, hused⟩ := not_or.mp h
  unfold Sys.examine
  cases hop : (s.bufs i).op with
  | UNUSED => exact if_neg fun hlt => hunused ⟨hop, hlt⟩
  | READ_PENDING =>
    have hover : (s.bufs i).isOver ≠ true :=
      fun hover => hused ⟨by rw [hop]; exact fun heq => Rwop.noConfusion heq, hover⟩
    unfold Buf.isOver at hover
    unfold Sys.startWrite
    cases hstatus : (s.bufs i).aiocb.status with
    | inProgress call => rfl
    | done n => rw [hstatus] at hover; exact absurd rfl hover
    | failed => rw [hstatus] at hover; exact absurd rfl hover
  | WRITE_PENDING =>
    have hover : (s.bufs i).isOver ≠ true :=
      fun hover => hused ⟨by rw [hop]; exact fun heq => Rwop.noConfusion heq, hover⟩
    unfold Buf.isOver at hover
    unfold Sys.release
    cases hstatus : (s.bufs i).aiocb.status with
    | inProgress call => rfl
    | done n => rw [hstatus] at hover; exact absurd rfl hover
    | failed => rw [hstatus] at hover; exact absurd rfl hover

/-- An operation that is over has failed, or has moved so many bytes. -/
theorem Buf.isOver_iff :
    b.isOver = true ↔ b.aiocb.status = .failed ∨ ∃ n, b.aiocb.status = .done n := by
  unfold Buf.isOver
  cases b.aiocb.status with
  | inProgress call =>
    exact iff_of_false Bool.false_ne_true fun h =>
      h.elim (fun heq => Status.noConfusion heq) fun ⟨_, heq⟩ => Status.noConfusion heq
  | done n => exact iff_of_true rfl (Or.inr ⟨n, rfl⟩)
  | failed => exact iff_of_true rfl (Or.inl rfl)

/-- The write of a block that has been read. -/
theorem startWrite_eq {n : ℕ} (hstatus : (s.bufs i).aiocb.status = .done n)
    (hlong : ¬(n ≠ BSZ ∧ (s.bufs i).last = false)) : s.startWrite i = { s with
      bufs := Function.update s.bufs i { s.bufs i with
        op := .WRITE_PENDING
        data := ((s.bufs i).data.take n).map translate ++ (s.bufs i).data.drop n
        aiocb := ⟨(s.bufs i).aiocb.aio_offset, n, .inProgress .aio_write⟩ } } := by
  unfold Sys.startWrite
  rw [hstatus]
  exact if_neg hlong

/-- A buffer whose block has been written. -/
theorem release_eq {n : ℕ} (hstatus : (s.bufs i).aiocb.status = .done n)
    (hlong : ¬n ≠ (s.bufs i).aiocb.aio_nbytes) : s.release i = { s with
      bufs := Function.update s.bufs i { s.bufs i with op := .UNUSED }
      aiolist := Function.update s.aiolist i false
      numop := s.numop - 1 } := by
  unfold Sys.release
  rw [hstatus]
  exact if_neg hlong

/-- The program gives up when a read is short, and not of the last block. -/
theorem startWrite_quit (h : (s.bufs i).aiocb.status = .failed ∨
    ∃ n, (s.bufs i).aiocb.status = .done n ∧ n ≠ BSZ ∧ (s.bufs i).last = false) :
    s.startWrite i = { s with outcome := some .quit } := by
  unfold Sys.startWrite
  rcases h with hstatus | ⟨n, hstatus, hshort⟩
  · rw [hstatus]
  · rw [hstatus]
    exact if_pos hshort

/-- The program gives up when a write is short. -/
theorem release_quit (h : (s.bufs i).aiocb.status = .failed ∨
    ∃ n, (s.bufs i).aiocb.status = .done n ∧ n ≠ (s.bufs i).aiocb.aio_nbytes) :
    s.release i = { s with outcome := some .quit } := by
  unfold Sys.release
  rcases h with hstatus | ⟨n, hstatus, hshort⟩
  · rw [hstatus]
  · rw [hstatus]
    exact if_pos hshort

/-- The program gives up, or the block of a buffer that is ready comes nearer to its end. -/
theorem examine_of_ready (h : s.Ready infile i) :
    s.examine infile i = { s with outcome := some .quit } ∨
      ((s.examine infile i).load infile + 20 ≤ s.load infile ∧
        (s.examine infile i).outcome = s.outcome) := by
  unfold Sys.examine
  cases hop : (s.bufs i).op with
  | UNUSED =>
    have hlt : s.off < infile.length := h.elim And.right fun hused => absurd hop hused.1
    have hblocks := blocks_add hlt
    obtain ⟨b', hb'⟩ : ∃ b' : Buf, b' = { s.bufs i with
        op := .READ_PENDING
        last := (s.bufs i).last || s.off + BSZ ≥ infile.length
        aiocb := ⟨s.off, BSZ, .inProgress .aio_read⟩ } := ⟨_, rfl⟩
    have hstart : s.startRead infile i = { s with
        bufs := Function.update s.bufs i b'
        off := s.off + BSZ
        aiolist := Function.update s.aiolist i true
        numop := s.numop + 1 } := by
      rw [hb']
      exact if_pos hlt
    have hsum := sum_weight_update s.bufs i b'
    have hweight : b'.weight = 42 := by rw [hb']; rfl
    have hold : (s.bufs i).weight = 0 := by unfold Buf.weight; rw [hop]; rfl
    refine Or.inr ?_
    show (s.startRead infile i).load infile + 20 ≤ _ ∧ (s.startRead infile i).outcome = _
    rw [hstart]
    refine ⟨?_, rfl⟩
    show 62 * blocks (infile.length - (s.off + BSZ)) +
      ∑ j, (Function.update s.bufs i b' j).weight + 20 ≤
        62 * blocks (infile.length - s.off) + ∑ j, (s.bufs j).weight
    omega
  | READ_PENDING =>
    have hover : (s.bufs i).isOver = true :=
      (h.resolve_left fun hunused => Rwop.noConfusion (hunused.1.symm.trans hop)).2
    have hold : (s.bufs i).weight = 41 := by unfold Buf.weight; rw [hop, hover]; rfl
    rcases Buf.isOver_iff.mp hover with hstatus | ⟨n, hstatus⟩
    · exact Or.inl (startWrite_quit (Or.inl hstatus))
    by_cases hshort : n ≠ BSZ ∧ (s.bufs i).last = false
    · exact Or.inl (startWrite_quit (Or.inr ⟨n, hstatus, hshort⟩))
    · have hstart := startWrite_eq hstatus hshort
      have hload : (s.startWrite i).load infile + (s.bufs i).weight = s.load infile + 21 := by
        rw [hstart]
        apply load_update infile <;> rfl
      have houtcome : (s.startWrite i).outcome = s.outcome := by rw [hstart]
      rw [hold] at hload
      exact Or.inr ⟨by show (s.startWrite i).load infile + 20 ≤ _; omega, houtcome⟩
  | WRITE_PENDING =>
    have hover : (s.bufs i).isOver = true :=
      (h.resolve_left fun hunused => Rwop.noConfusion (hunused.1.symm.trans hop)).2
    have hold : (s.bufs i).weight = 20 := by unfold Buf.weight; rw [hop, hover]; rfl
    rcases Buf.isOver_iff.mp hover with hstatus | ⟨n, hstatus⟩
    · exact Or.inl (release_quit (Or.inl hstatus))
    by_cases hshort : n ≠ (s.bufs i).aiocb.aio_nbytes
    · exact Or.inl (release_quit (Or.inr ⟨n, hstatus, hshort⟩))
    · have hrelease := release_eq hstatus hshort
      have hload : (s.release i).load infile + (s.bufs i).weight = s.load infile + 0 := by
        rw [hrelease]
        apply load_update infile <;> rfl
      have houtcome : (s.release i).outcome = s.outcome := by rw [hrelease]
      rw [hold] at hload
      exact Or.inr ⟨by show (s.release i).load infile + 20 ≤ _; omega, houtcome⟩

/-- What remains of the passes, while the program runs. -/
theorem rest_le (h : s.outcome = none) : s.rest infile ≤ NBUF - s.i + (NBUF + 1) := by
  have hone : (if ∃ i : Fin NBUF, s.i ≤ i ∧ s.Ready infile i then 0 else NBUF + 1) ≤ NBUF + 1 := by
    split_ifs
    · exact Nat.zero_le _
    · exact Nat.le_refl _
  unfold Sys.rest
  rw [h]
  exact Nat.add_le_add_left hone _

/-- What remains of the passes when there is something to do in this one. -/
theorem rest_of_ahead (h : s.outcome = none) (hahead : ∃ i : Fin NBUF, s.i ≤ i ∧ s.Ready infile i) :
    s.rest infile = NBUF - s.i := by
  unfold Sys.rest
  rw [h]
  exact congrArg (NBUF - s.i + ·) (if_pos hahead)

/-- What remains of the passes when there is nothing to do in this one. -/
theorem rest_of_not_ahead (h : s.outcome = none)
    (hahead : ¬∃ i : Fin NBUF, s.i ≤ i ∧ s.Ready infile i) :
    s.rest infile = NBUF - s.i + (NBUF + 1) := by
  unfold Sys.rest
  rw [h]
  exact congrArg (NBUF - s.i + ·) (if_neg hahead)

/-- A program that has ended makes no more passes. -/
theorem rest_of_ended {o : Outcome} (h : s.outcome = some o) : s.rest infile = 0 := by
  unfold Sys.rest
  rw [h]
  rfl

/-- There is something to do at the beginning of the next pass. -/
theorem toGo_restart (hend : s.outcome = none) (hi : ¬s.i < NBUF)
    (hready : ∃ i : Fin NBUF, s.Ready infile i) :
    Sys.toGo infile { s with i := 0 } < s.toGo infile := by
  obtain ⟨i, hi'⟩ := hready
  have hnot : ¬∃ i : Fin NBUF, s.i ≤ i ∧ s.Ready infile i := by
    rintro ⟨j, hj, -⟩
    exact hi (hj.trans_lt j.isLt)
  have hrest := rest_of_not_ahead hend hnot
  have hrest' : Sys.rest infile { s with i := 0 } = NBUF - 0 :=
    rest_of_ahead hend ⟨i, Nat.zero_le _, hi'⟩
  have hload : Sys.load infile { s with i := 0 } = s.load infile := rfl
  unfold Sys.toGo
  omega

/-- A pass over a buffer lowers the measure. -/
theorem toGo_examine (hend : s.outcome = none) (hi : s.i < NBUF) :
    Sys.toGo infile { s.examine infile ⟨s.i, hi⟩ with i := s.i + 1 } < s.toGo infile := by
  by_cases hready : s.Ready infile ⟨s.i, hi⟩
  · have hrest := rest_of_ahead hend ⟨⟨s.i, hi⟩, Nat.le_refl _, hready⟩
    rcases examine_of_ready hready with hquit | ⟨hload, houtcome⟩
    · have hrest' : Sys.rest infile { s.examine infile ⟨s.i, hi⟩ with i := s.i + 1 } = 0 :=
        rest_of_ended (o := .quit) (by rw [hquit])
      have hload : Sys.load infile { s.examine infile ⟨s.i, hi⟩ with i := s.i + 1 } =
          s.load infile := by rw [hquit]; rfl
      unfold Sys.toGo
      omega
    · have hrest' : Sys.rest infile { s.examine infile ⟨s.i, hi⟩ with i := s.i + 1 } ≤
          NBUF - (s.i + 1) + (NBUF + 1) := rest_le (houtcome.trans hend)
      have hload' : Sys.load infile { s.examine infile ⟨s.i, hi⟩ with i := s.i + 1 } =
          (s.examine infile ⟨s.i, hi⟩).load infile := rfl
      unfold Sys.toGo
      unfold NBUF at *
      omega
  · rw [examine_of_not_ready hready]
    have hload : Sys.load infile { s with i := s.i + 1 } = s.load infile := rfl
    have hahead : (∃ i : Fin NBUF, s.i + 1 ≤ i ∧ s.Ready infile i) ↔
        ∃ i : Fin NBUF, s.i ≤ i ∧ s.Ready infile i := by
      refine exists_congr fun j => and_congr_left fun hj => ⟨Nat.le_of_succ_le, fun hle => ?_⟩
      refine Nat.lt_of_le_of_ne hle fun heq => hready ?_
      have hij : (⟨s.i, hi⟩ : Fin NBUF) = j := Fin.ext heq
      rwa [hij]
    show Sys.load infile { s with i := s.i + 1 } + Sys.rest infile { s with i := s.i + 1 } <
      s.load infile + s.rest infile
    by_cases hthere : ∃ i : Fin NBUF, s.i ≤ i ∧ s.Ready infile i
    · have hrest := rest_of_ahead hend hthere
      have hrest' : Sys.rest infile { s with i := s.i + 1 } = NBUF - (s.i + 1) :=
        rest_of_ahead hend (hahead.mpr hthere)
      omega
    · have hrest := rest_of_not_ahead hend hthere
      have hrest' : Sys.rest infile { s with i := s.i + 1 } = NBUF - (s.i + 1) + (NBUF + 1) :=
        rest_of_not_ahead hend fun h => hthere (hahead.mp h)
      omega

/-- A step of the program lowers the measure. -/
theorem toGo_go (h : Inv infile s) (hgo : s.go infile = some s') :
    s'.toGo infile < s.toGo infile := by
  unfold Sys.go at hgo
  split_ifs at hgo with hsome hi hnumop hoff hover
  · have hend := Option.not_isSome_iff_eq_none.mp hsome
    obtain rfl := Option.some.inj hgo
    exact toGo_examine hend hi
  · have hend := Option.not_isSome_iff_eq_none.mp hsome
    obtain rfl := Option.some.inj hgo
    have hnot : ¬∃ i : Fin NBUF, s.i ≤ i ∧ s.Ready infile i := by
      rintro ⟨j, hj, -⟩
      exact hi (hj.trans_lt j.isLt)
    have hrest := rest_of_not_ahead hend hnot
    have hrest' : Sys.rest infile { s with outcome := some .exited } = 0 := rest_of_ended rfl
    have hload : Sys.load infile { s with outcome := some .exited } = s.load infile := rfl
    unfold Sys.toGo
    omega
  · have hend := Option.not_isSome_iff_eq_none.mp hsome
    obtain rfl := Option.some.inj hgo
    refine toGo_restart hend hi ⟨⟨0, by decide⟩, Or.inl ⟨h.unused hnumop _, ?_⟩⟩
    exact Nat.not_le.mp hoff
  · have hend := Option.not_isSome_iff_eq_none.mp hsome
    obtain rfl := Option.some.inj hgo
    obtain ⟨i, hlist, hisOver⟩ := hover
    exact toGo_restart hend hi ⟨i, Or.inr ⟨(h.list i).mp hlist, hisOver⟩⟩

/-- An operation that is over. -/
theorem toGo_over (b' : Buf) (outfile : List UInt8) {call : Call} (hused : (s.bufs i).op ≠ .UNUSED)
    (hstatus : (s.bufs i).aiocb.status = .inProgress call) (hop : b'.op = (s.bufs i).op)
    (hover : b'.isOver = true) :
    Sys.toGo infile { s with bufs := Function.update s.bufs i b', outfile := outfile } <
      s.toGo infile := by
  have hbefore : (s.bufs i).isOver = false := by
    unfold Buf.isOver
    rw [hstatus]
  obtain ⟨t, ht⟩ : ∃ t : Sys, t = { s with
    bufs := Function.update s.bufs i b', outfile := outfile } := ⟨_, rfl⟩
  have hload : t.load infile + (s.bufs i).weight = s.load infile + b'.weight :=
    load_update infile (by rw [ht]) (by rw [ht]) rfl
  have hlower : b'.weight + 1 = (s.bufs i).weight := by
    unfold Buf.weight
    rw [hop, hover, hbefore]
    cases hop' : (s.bufs i).op with
    | UNUSED => exact absurd hop' hused
    | READ_PENDING => rfl
    | WRITE_PENDING => rfl
  -- What was ready before is ready still.
  have hready : ∀ j, s.Ready infile j → t.Ready infile j := by
    intro j hj
    rw [ht]
    show (Function.update s.bufs i b' j).op = .UNUSED ∧ s.off < infile.length ∨
      (Function.update s.bufs i b' j).op ≠ .UNUSED ∧ (Function.update s.bufs i b' j).isOver = true
    by_cases hji : j = i
    · subst hji
      rw [Function.update_self]
      exact Or.inr ⟨hop ▸ hused, hover⟩
    · rw [Function.update_of_ne hji]
      exact hj
  have hrest : t.rest infile ≤ s.rest infile := by
    have houtcome : t.outcome = s.outcome := by rw [ht]
    have hi : t.i = s.i := by rw [ht]
    cases hend : s.outcome with
    | some o => rw [rest_of_ended (houtcome.trans hend), rest_of_ended hend]
    | none =>
      by_cases hahead : ∃ j : Fin NBUF, s.i ≤ j ∧ s.Ready infile j
      · obtain ⟨j, hj, hjr⟩ := hahead
        rw [rest_of_ahead hend ⟨j, hj, hjr⟩,
          rest_of_ahead (houtcome.trans hend) ⟨j, hi ▸ hj, hready j hjr⟩, hi]
      · rw [rest_of_not_ahead hend hahead, ← hi]
        exact rest_le (houtcome.trans hend)
  rw [← ht]
  unfold Sys.toGo
  omega

/-- What the system does lowers the measure. -/
theorem toGo_complete (h : Inv infile s) {r : Result} (hstep : s.complete infile i r = some s') :
    s'.toGo infile < s.toGo infile := by
  unfold Sys.complete at hstep
  split at hstep
  · rename_i hstatus
    obtain rfl := Option.some.inj hstep
    exact toGo_over ((s.bufs i).over .failed) s.outfile (h.used hstatus) hstatus rfl rfl
  · rename_i n hstatus
    split_ifs at hstep with hn
    obtain rfl := Option.some.inj hstep
    exact toGo_over { (s.bufs i).over (.done n) with
      data := readAt infile (s.bufs i).aiocb.aio_offset n ++ (s.bufs i).data.drop n } s.outfile
      (h.used hstatus) hstatus rfl rfl
  · rename_i n hstatus
    by_cases hn : n ≤ (s.bufs i).available infile .aio_write
    · rw [if_pos hn] at hstep
      obtain rfl := Option.some.inj hstep
      exact toGo_over ((s.bufs i).over (.done n)) _ (h.used hstatus) hstatus rfl rfl
    · rw [if_neg hn] at hstep
      exact absurd hstep.symm (Option.some_ne_none s')
  · exact absurd hstep.symm (Option.some_ne_none s')
  · exact absurd hstep.symm (Option.some_ne_none s')

/-- Each step lowers the measure. -/
theorem toGo_step (h : Inv infile s) {a : Act} (hstep : Rot13.step infile s a = some s') :
    s'.toGo infile < s.toGo infile := by
  cases a with
  | go => exact toGo_go h hstep
  | complete i r => exact toGo_complete h hstep

/-! ## A system that moves all bytes -/

/-- The system moves all the bytes that it is asked to, and no operation fails. -/
def AllMoved (infile : List UInt8) (s : Sys) : Act → Prop
  | .complete i r =>
    ((s.bufs i).aiocb.status = .inProgress .aio_read →
      r = .bytes ((s.bufs i).available infile .aio_read)) ∧
    ((s.bufs i).aiocb.status = .inProgress .aio_write →
      r = .bytes ((s.bufs i).available infile .aio_write))
  | .go => True

/-- Whether it does. -/
instance instDecidableAllMoved (infile : List UInt8) (s : Sys) :
    (a : Act) → Decidable (AllMoved infile s a)
  | .complete i r =>
    inferInstanceAs (Decidable (((s.bufs i).aiocb.status = .inProgress .aio_read →
        r = .bytes ((s.bufs i).available infile .aio_read)) ∧
      ((s.bufs i).aiocb.status = .inProgress .aio_write →
        r = .bytes ((s.bufs i).available infile .aio_write))))
  | .go => .isTrue trivial

/-- The last block is then read as a whole. -/
theorem AllMoved.lastRead {a : Act} (h : AllMoved infile s a) : LastRead infile s a := by
  match a, h with
  | .complete i (.bytes n), h => exact fun hstatus _ => Result.bytes.inj (h.1 hstatus)
  | .complete _ .error, _ => exact trivial
  | .go, _ => exact trivial

/-- All operations that are over have moved all bytes, and the program has not given up. -/
structure Moved (infile : List UInt8) (s : Sys) : Prop where
  read : ∀ i, (s.bufs i).op = .READ_PENDING → (s.bufs i).isOver = true →
    (s.bufs i).aiocb.status = .done ((s.bufs i).blockLength infile)
  write : ∀ i, (s.bufs i).op = .WRITE_PENDING → (s.bufs i).isOver = true →
    (s.bufs i).aiocb.status = .done (s.bufs i).aiocb.aio_nbytes
  outcome : s.outcome ≠ some .quit

/-- In front of the loop. -/
theorem moved_init : Moved infile Sys.init :=
  ⟨fun _ hop => Rwop.noConfusion hop, fun _ hop => Rwop.noConfusion hop,
    (Option.some_ne_none _).symm⟩

/-- One buffer changes. -/
theorem Moved.update (h : Moved infile s) {t : Sys} (houtcome : t.outcome = s.outcome)
    (hbufs : t.bufs = Function.update s.bufs i b')
    (hread : b'.op = .READ_PENDING → b'.isOver = true →
      b'.aiocb.status = .done (b'.blockLength infile))
    (hwrite : b'.op = .WRITE_PENDING → b'.isOver = true →
      b'.aiocb.status = .done b'.aiocb.aio_nbytes) : Moved infile t := by
  refine ⟨fun j => ?_, fun j => ?_, by rw [houtcome]; exact h.outcome⟩
  · rw [hbufs]
    by_cases hj : j = i
    · rw [hj, Function.update_self]
      exact hread
    · rw [Function.update_of_ne hj]
      exact h.read j
  · rw [hbufs]
    by_cases hj : j = i
    · rw [hj, Function.update_self]
      exact hwrite
    · rw [Function.update_of_ne hj]
      exact h.write j

/-- The program looks at a buffer, and does not give up. -/
theorem Moved.examine (h : Moved infile s) (hinv : Inv infile s) (i : Fin NBUF) :
    Moved infile (s.examine infile i) := by
  by_cases hready : s.Ready infile i
  swap
  · rw [examine_of_not_ready hready]
    exact h
  unfold Sys.examine
  cases hop : (s.bufs i).op with
  | UNUSED =>
    show Moved infile (s.startRead infile i)
    unfold Sys.startRead
    split_ifs
    · exact h.update rfl rfl (fun _ hover => absurd hover Bool.false_ne_true)
        fun hop' => Rwop.noConfusion hop'
    · exact h
  | READ_PENDING =>
    have hover : (s.bufs i).isOver = true :=
      (hready.resolve_left fun hunused => Rwop.noConfusion (hunused.1.symm.trans hop)).2
    have hstatus := h.read i hop hover
    have hflight := hinv.flight i (by rw [hop]; exact fun heq => Rwop.noConfusion heq)
    have hlong : ¬((s.bufs i).blockLength infile ≠ BSZ ∧ (s.bufs i).last = false) := by
      rintro ⟨hne, hlast⟩
      refine hne ?_
      have hbefore : ¬infile.length ≤ (s.bufs i).aiocb.aio_offset + BSZ := fun hle =>
        Bool.false_ne_true (hlast.symm.trans (hflight.last.mpr hle))
      unfold Buf.blockLength
      omega
    show Moved infile (s.startWrite i)
    rw [startWrite_eq hstatus hlong]
    exact h.update rfl rfl (fun hop' => Rwop.noConfusion hop')
      fun _ hover' => absurd hover' Bool.false_ne_true
  | WRITE_PENDING =>
    have hover : (s.bufs i).isOver = true :=
      (hready.resolve_left fun hunused => Rwop.noConfusion (hunused.1.symm.trans hop)).2
    have hstatus := h.write i hop hover
    show Moved infile (s.release i)
    rw [release_eq hstatus (not_not_intro rfl)]
    exact h.update rfl rfl (fun hop' => Rwop.noConfusion hop') fun hop' => Rwop.noConfusion hop'

/-- A step of the program. -/
theorem Moved.go (h : Moved infile s) (hinv : Inv infile s) (hgo : s.go infile = some s') :
    Moved infile s' := by
  unfold Sys.go at hgo
  split_ifs at hgo with hsome hi hnumop hoff hover
  · obtain rfl := Option.some.inj hgo
    exact { h.examine hinv ⟨s.i, hi⟩ with }
  · obtain rfl := Option.some.inj hgo
    exact { h with outcome := fun heq => Outcome.noConfusion (Option.some.inj heq) }
  · obtain rfl := Option.some.inj hgo
    exact { h with }
  · obtain rfl := Option.some.inj hgo
    exact { h with }

/-- An operation that moves all bytes. -/
theorem Moved.complete (h : Moved infile s) (hinv : Inv infile s) {r : Result}
    (hmoved : AllMoved infile s (.complete i r)) (hstep : s.complete infile i r = some s') :
    Moved infile s' := by
  unfold Sys.complete at hstep
  split at hstep
  · rename_i call hstatus
    -- No operation fails.
    cases call with
    | aio_read => exact Result.noConfusion (hmoved.1 hstatus)
    | aio_write => exact Result.noConfusion (hmoved.2 hstatus)
  · rename_i n hstatus
    have hop := hinv.op_read hstatus
    have hn : n = (s.bufs i).blockLength infile := by
      rw [Result.bytes.inj (hmoved.1 hstatus), Buf.available, (hinv.reading hop).1]
      rfl
    split_ifs at hstep
    obtain rfl := Option.some.inj hstep
    refine h.update rfl rfl (fun _ _ => ?_) fun hop' => ?_
    · exact congrArg Status.done hn
    · exact Rwop.noConfusion (hop.symm.trans hop')
  · rename_i n hstatus
    have hop := hinv.op_write hstatus
    have hn : n = (s.bufs i).aiocb.aio_nbytes := Result.bytes.inj (hmoved.2 hstatus)
    by_cases hle : n ≤ (s.bufs i).available infile .aio_write
    · rw [if_pos hle] at hstep
      obtain rfl := Option.some.inj hstep
      refine h.update rfl rfl (fun hop' => ?_) fun _ _ => ?_
      · exact Rwop.noConfusion (hop.symm.trans hop')
      · exact congrArg Status.done hn
    · rw [if_neg hle] at hstep
      exact absurd hstep.symm (Option.some_ne_none s')
  · exact absurd hstep.symm (Option.some_ne_none s')
  · exact absurd hstep.symm (Option.some_ne_none s')

/-- Each step keeps both invariants, and lowers the measure. -/
theorem moved_step (h : Inv infile s ∧ Moved infile s) {a : Act} (hmoved : AllMoved infile s a)
    (hstep : Rot13.step infile s a = some s') :
    (Inv infile s' ∧ Moved infile s') ∧ s'.toGo infile < s.toGo infile := by
  refine ⟨⟨h.1.step hmoved.lastRead hstep, ?_⟩, toGo_step h.1 hstep⟩
  cases a with
  | go => exact h.2.go h.1 hstep
  | complete i r => exact h.2.complete h.1 hmoved hstep

/-! ## The end -/

/-- While the program has not ended, it can take a step, or an operation is in progress. -/
theorem Inv.exists_step (h : Inv infile s) (hend : s.outcome = none) :
    ∃ a, AllMoved infile s a ∧ Rot13.step infile s a ≠ none := by
  have hgo : s.go infile ≠ none ∨
      s.numop ≠ 0 ∧ ¬∃ i, s.aiolist i = true ∧ (s.bufs i).isOver = true := by
    unfold Sys.go
    rw [hend]
    show (if hi : s.i < NBUF then _ else _) ≠ none ∨ _
    split_ifs with hi hnumop hoff hover
    · exact Or.inl (Option.some_ne_none _)
    · exact Or.inl (Option.some_ne_none _)
    · exact Or.inl (Option.some_ne_none _)
    · exact Or.inl (Option.some_ne_none _)
    · exact Or.inr ⟨hnumop, hover⟩
  rcases hgo with hgo | ⟨hnumop, hover⟩
  · exact ⟨.go, trivial, hgo⟩
  · -- All buffers that are used have an operation in progress.
    have hne : (Finset.univ.filter fun i => (s.bufs i).op ≠ .UNUSED).Nonempty := by
      rw [← Finset.card_pos]
      have hcard := h.numop
      omega
    obtain ⟨i, hi⟩ := hne
    have hused := (Finset.mem_filter.mp hi).2
    cases hstatus : (s.bufs i).aiocb.status with
    | inProgress call =>
      refine ⟨.complete i (.bytes ((s.bufs i).available infile call)), ?_, ?_⟩
      · refine ⟨fun hcall => ?_, fun hcall => ?_⟩
        · rw [Status.inProgress.inj (hstatus.symm.trans hcall)]
        · rw [Status.inProgress.inj (hstatus.symm.trans hcall)]
      · show s.complete infile i _ ≠ none
        unfold Sys.complete
        rw [hstatus]
        cases call with
        | aio_read =>
          show (if _ then _ else _) ≠ none
          rw [if_pos (Nat.le_refl _)]
          exact Option.some_ne_none _
        | aio_write =>
          show (if _ then _ else _) ≠ none
          rw [if_pos (Nat.le_refl _)]
          exact Option.some_ne_none _
    | done n =>
      exact absurd ⟨i, (h.list i).mpr hused, Buf.isOver_iff.mpr (Or.inr ⟨n, hstatus⟩)⟩ hover
    | failed =>
      exact absurd ⟨i, (h.list i).mpr hused, Buf.isOver_iff.mpr (Or.inl hstatus)⟩ hover

/-- What remains to be done in front of the loop. -/
theorem toGo_init_le (infile : List UInt8) :
    Sys.init.toGo infile ≤ 62 * blocks infile.length + 17 := by
  have hweights : ∑ i, (Sys.init.bufs i).weight = 0 := Finset.sum_eq_zero fun _ _ => rfl
  have hrest : Sys.init.rest infile ≤ NBUF - 0 + (NBUF + 1) := rest_le rfl
  have hload : Sys.init.load infile = 62 * blocks infile.length := by
    unfold Sys.load
    rw [hweights]
    rfl
  unfold Sys.toGo
  unfold NBUF at hrest
  omega

/-- When the system moves all the bytes that it is asked to, the program never gives up and takes a
bounded number of steps, in whatever order the operations are carried out; and when no more steps
are possible, it has come to its `exit(0)` with the whole input translated. -/
theorem rot13_ends {es : List Act}
    (hrun : Run (Rot13.step infile) (AllMoved infile) Sys.init es s) :
    es.length ≤ 62 * blocks infile.length + 17 ∧ s.outcome ≠ some .quit ∧
      ((∀ a, AllMoved infile s a → Rot13.step infile s a = none) →
        s.outcome = some .exited ∧ s.outfile = infile.map translate) := by
  obtain ⟨⟨hinv, hmoved⟩, hlength⟩ := hrun.guarded_length_add_le ⟨inv_init, moved_init⟩
    fun _ _ _ h hG hstep => moved_step h hG hstep
  have hinit := toGo_init_le infile
  refine ⟨by omega, hmoved.outcome, fun hstuck => ?_⟩
  have hexit : s.outcome = some .exited := by
    cases hend : s.outcome with
    | none =>
      obtain ⟨a, ha, hstep⟩ := hinv.exists_step hend
      exact absurd (hstuck a ha) hstep
    | some o =>
      cases o with
      | exited => rfl
      | quit => exact absurd hend hmoved.outcome
  exact ⟨hexit, hinv.outfile_eq hexit⟩

/-- Nothing happens any more when the program has ended and all operations are over. -/
theorem step_of_over {o : Outcome} (hend : s.outcome = some o)
    (hover : ∀ i, (s.bufs i).isOver = true) (a : Act) : Rot13.step infile s a = none := by
  cases a with
  | go =>
    show s.go infile = none
    unfold Sys.go
    rw [hend]
    rfl
  | complete i r =>
    show s.complete infile i r = none
    unfold Sys.complete
    rcases Buf.isOver_iff.mp (hover i) with hstatus | ⟨n, hstatus⟩
    · rw [hstatus]
    · rw [hstatus]

/-- Two bytes, of which the program starts the write at its second pass over the buffers. -/
theorem rot13_ends_two : ∃ es s, Run (Rot13.step [72, 105]) (AllMoved [72, 105]) Sys.init es s ∧
    es.length ≤ 62 * 1 + 17 ∧ s.outcome = some .exited ∧ s.outfile = [85, 118] := by
  obtain ⟨es, hes⟩ : ∃ es : List Act, es = List.replicate 8 .go ++
    [.complete ⟨0, by decide⟩ (.bytes 2)] ++ List.replicate 9 .go ++
    [.complete ⟨0, by decide⟩ (.bytes 2)] ++ List.replicate 10 .go := ⟨_, rfl⟩
  have hexec : ((exec (restrict (Rot13.step [72, 105]) (AllMoved [72, 105])) Sys.init es).any
      fun s => s.outcome = some .exited ∧ ∀ i, (s.bufs i).isOver = true) = true := by
    rw [hes]
    decide +kernel
  obtain ⟨s, hs, hlast⟩ := (Option.any_eq_true _ _).mp hexec
  obtain ⟨hexit, hover⟩ := of_decide_eq_true hlast
  have hrun := Run.of_exec_restrict hs
  obtain ⟨hlength, -, hends⟩ := rot13_ends hrun
  obtain ⟨-, hout⟩ := hends fun a _ => step_of_over hexit hover a
  have htext : ([72, 105] : List UInt8).map translate = [85, 118] := by decide
  exact ⟨es, s, hrun, hlength, hexit, hout.trans htext⟩

end CxxPandora.Apue.Rot13
