import Mathlib.Data.List.FinRange
import Mathlib.Logic.Function.Basic

/-!
# `dup2` by way of `dup`

`my_dup2` of `linux/apue.3e.exs/apue3/Chapter03/my_dup2.c`, and the stack that it keeps the
intermediate duplicates on. `stack_pop` reads the item at the size of the stack, which is one behind
the last item, so no duplicate can be closed again as it should. `hasEffect_iff` says for which
tables and descriptors `my_dup2` does what `dup2` does all the same.
-/

namespace CxxPandora.Apue.Dup2

/-! ## The descriptor table -/

/-- The files that the descriptors below the limit refer to; `none` when a descriptor is free. -/
abbrev Table (F : Type) (limit : ℕ) := Fin limit → Option F

section Model

variable {F : Type} {limit : ℕ}

/-- The descriptor of a number, if it is in the range. -/
def descriptor (limit : ℕ) (fd : ℤ) : Option (Fin limit) :=
  if h : 0 ≤ fd ∧ fd < limit then some ⟨fd.toNat, by omega⟩ else none

/-- The file that a number refers to, if it is an open descriptor. -/
def Table.file (files : Table F limit) (fd : ℤ) : Option F :=
  (descriptor limit fd).bind files

/-- The lowest free descriptor. -/
def Table.lowestFree (files : Table F limit) : Option (Fin limit) :=
  (List.finRange limit).find? fun fd => (files fd).isNone

/-- `dup`: what it returns, and the table after it. -/
def Table.dup (files : Table F limit) (oldfd : ℤ) : ℤ × Table F limit :=
  match files.file oldfd, files.lowestFree with
  | some file, some fd => (((fd : ℕ) : ℤ), Function.update files fd (some file))
  | _, _ => (-1, files)

/-- `close`. It fails with `EBADF` only, for a descriptor that is not open, and changes nothing. -/
def Table.close (files : Table F limit) (fd : ℤ) : Table F limit :=
  match descriptor limit fd with
  | some fd => Function.update files fd none
  | none => files

/-! ## The stack -/

/-- The stack. The memory behind the items that have been pushed has any contents. -/
structure Stack where
  data : ℕ → Option ℤ
  size : ℕ

/-- `stack_new`. -/
def stack_new : Stack := ⟨fun _ => none, 0⟩

/-- `stack_push`. -/
def stack_push (s : Stack) (item : ℤ) : Stack :=
  ⟨Function.update s.data s.size (some item), s.size + 1⟩

/-- `stack_pop`. -/
def stack_pop (junk : ℕ → ℤ) (s : Stack) : ℤ × Stack :=
  ((s.data s.size).getD (junk s.size), { s with size := s.size - 1 })

/-! ## `my_dup2` -/

/-- The loop that duplicates until `newfd` is taken; `none` when there are more than `n` passes. -/
def fill (oldfd newfd : ℤ) : ℕ → Table F limit → Stack → Option (Table F limit × Stack)
  | 0, _, _ => none
  | n + 1, files, s =>
    let (fd, files) := files.dup oldfd
    if fd ≠ newfd then fill oldfd newfd n files (stack_push s fd) else some (files, s)

/-- The loop that closes what is popped: the table after it, and the indices that have been read. -/
def drain (junk : ℕ → ℤ) (files : Table F limit) (s : Stack) : Table F limit × List ℕ :=
  if _h : 0 < s.size then
    let popped := stack_pop junk s
    let rest := drain junk (files.close popped.1) popped.2
    (rest.1, s.size :: rest.2)
  else (files, [])
termination_by s.size
decreasing_by exact Nat.sub_lt _h Nat.one_pos

/-- What comes of a call: what it returns, the table, the stack before it is destroyed, and the
indices at which the stack has been read. -/
structure Result (F : Type) (limit : ℕ) where
  ret : ℤ
  files : Table F limit
  stack : Stack
  reads : List ℕ

/-- `my_dup2` with at most `n` passes of its first loop, over a stack whose memory holds `junk`
where nothing has been pushed. -/
def my_dup2 (junk : ℕ → ℤ) (n : ℕ) (files : Table F limit) (oldfd newfd : ℤ) :
    Option (Result F limit) :=
  if oldfd < 0 ∨ newfd < 0 then some ⟨-1, files, stack_new, []⟩
  else if oldfd = newfd then some ⟨newfd, files, stack_new, []⟩
  else
    let (fd, files) := files.dup oldfd
    if fd < 0 then some ⟨-1, files, stack_new, []⟩
    else do
      let files := files.close fd
      let files := files.close newfd
      let (files, s) ← fill oldfd newfd n files stack_new
      let (files, reads) := drain junk files s
      some ⟨newfd, files, s, reads⟩

/-! ## The effect of `dup2` -/

/-- The call terminates. If it returns `newfd`, that refers to the file of `oldfd` now, and nothing
else has changed. If it returns -1 and `oldfd` is not open or `newfd` is out of range, nothing has
changed. The stack is read only where something has been pushed. -/
def HasEffect (junk : ℕ → ℤ) (files : Table F limit) (oldfd newfd : ℤ) : Prop :=
  ∃ n r, my_dup2 junk n files oldfd newfd = some r ∧
    (r.ret = newfd → 0 ≤ newfd → ∃ file fd, files.file oldfd = some file ∧
      descriptor limit newfd = some fd ∧ r.files = Function.update files fd (some file)) ∧
    (r.ret = -1 → files.file oldfd = none ∨ descriptor limit newfd = none → r.files = files) ∧
    ∀ i ∈ r.reads, r.stack.data i ≠ none

/-- The calls that have the effect of `dup2`: those with a negative number, those with one open
descriptor twice, those whose `oldfd` is not open, those when no descriptor is free, and those when
no descriptor below `newfd` is free. -/
def Manages (files : Table F limit) (oldfd newfd : ℤ) : Prop :=
  (oldfd < 0 ∨ newfd < 0) ∨
  (oldfd = newfd ∧ files.file oldfd ≠ none) ∨
  (oldfd ≠ newfd ∧ (files.file oldfd = none ∨ (∀ fd, files fd ≠ none) ∨
    ∃ fd, descriptor limit newfd = some fd ∧ ∀ fd' < fd, files fd' ≠ none))

end Model

section Lemmas

variable {F : Type} {limit : ℕ} {files files' : Table F limit} {oldfd newfd : ℤ}
  {fd fd' : Fin limit}
  {file : F} {s s' : Stack} {n : ℕ} {junk : ℕ → ℤ}

/-- The lowest free descriptor. -/
theorem lowestFree_eq_some :
    files.lowestFree = some fd ↔ files fd = none ∧ ∀ fd' < fd, files fd' ≠ none := by
  rw [Table.lowestFree, List.find?_eq_some_iff_getElem]
  simp only [List.getElem_finRange, Option.isNone_iff_eq_none]
  refine and_congr_right fun _ => ⟨?_, fun h => ?_⟩
  · rintro ⟨i, hi, rfl, hlt⟩ fd' hfd'
    have hne := hlt fd' hfd'
    exact Option.isSome_iff_ne_none.mp (by simpa using hne)
  · refine ⟨fd, by simp, rfl, fun j hj => ?_⟩
    have hne := Option.isSome_iff_ne_none.mpr (h ⟨j, by omega⟩ hj)
    simpa using hne

/-- No descriptor is free. -/
theorem lowestFree_eq_none : files.lowestFree = none ↔ ∀ fd, files fd ≠ none := by
  rw [Table.lowestFree, List.find?_eq_none]
  simp

/-- The number of a descriptor. -/
theorem descriptor_eq_some (h : descriptor limit newfd = some fd) : newfd = (fd : ℕ) := by
  unfold descriptor at h
  split_ifs at h with hrange
  rw [← Option.some.inj h]
  exact (Int.toNat_of_nonneg hrange.1).symm

/-- The descriptor of its number. -/
theorem descriptor_natCast (fd : Fin limit) : descriptor limit ((fd : ℕ) : ℤ) = some fd := by
  unfold descriptor
  rw [dif_pos ⟨by omega, by omega⟩]
  rfl

/-- `dup` of an open descriptor when there is a free one. -/
theorem dup_eq (hfile : files.file oldfd = some file) (hfree : files.lowestFree = some fd) :
    files.dup oldfd = (((fd : ℕ) : ℤ), Function.update files fd (some file)) := by
  rw [Table.dup, hfile, hfree]

/-- What `dup` returns is no number out of the range. -/
theorem dup_ne (hnewfd : descriptor limit newfd = none) (hpos : 0 ≤ newfd) :
    (files.dup oldfd).1 ≠ newfd := by
  unfold Table.dup
  split
  · rintro rfl
    rw [descriptor_natCast] at hnewfd
    cases hnewfd
  · show (-1 : ℤ) ≠ newfd
    omega

/-- The first loop does not end when `newfd` is out of the range. -/
theorem fill_eq_none (hnewfd : descriptor limit newfd = none) (hpos : 0 ≤ newfd) :
    fill oldfd newfd n files s = none := by
  induction n generalizing files s with
  | zero => rfl
  | succ n ih =>
    unfold fill
    dsimp only
    rw [if_pos (dup_ne hnewfd hpos)]
    exact ih

/-- What has been pushed is below the size. -/
def Stack.Packed (s : Stack) : Prop := ∀ i, s.data i ≠ none ↔ i < s.size

/-- So it is at the start. -/
theorem packed_stack_new : stack_new.Packed := fun _ =>
  iff_of_false (fun h => h rfl) (Nat.not_lt_zero _)

/-- It stays so. -/
theorem Stack.Packed.push (h : s.Packed) (item : ℤ) : (stack_push s item).Packed := by
  intro i
  unfold stack_push
  dsimp only
  by_cases hi : i = s.size
  · rw [hi, Function.update_self]
    exact iff_of_true (Option.some_ne_none item) (Nat.lt_succ_self _)
  · rw [Function.update_of_ne hi, h i]
    omega

/-- The first loop keeps it so, and pops nothing. -/
theorem Stack.Packed.fill (h : s.Packed) (hfill : fill oldfd newfd n files s = some (files', s')) :
    s'.Packed ∧ s.size ≤ s'.size := by
  induction n generalizing files s with
  | zero => cases hfill
  | succ n ih =>
    unfold Dup2.fill at hfill
    dsimp only at hfill
    split_ifs at hfill with hfd
    · obtain ⟨hpacked, hle⟩ := ih (h.push _) hfill
      exact ⟨hpacked, Nat.le_of_succ_le hle⟩
    · obtain ⟨-, rfl⟩ := Prod.mk.inj (Option.some.inj hfill)
      exact ⟨h, Nat.le_refl _⟩

/-- The first pop reads behind what has been pushed. -/
theorem Stack.Packed.reads_drain (h : s.Packed) (hsize : 0 < s.size) :
    ∃ i ∈ (drain junk files s).2, s.data i = none := by
  refine ⟨s.size, ?_, not_not.mp (mt (h s.size).mp (Nat.lt_irrefl _))⟩
  unfold drain
  rw [dif_pos hsize]
  exact List.mem_cons_self

/-- Nothing is read from an empty stack. -/
theorem drain_stack_new : drain junk files stack_new = (files, []) := by
  unfold drain
  exact dif_neg (Nat.lt_irrefl 0)

/-- The table after the first `dup` has been taken back. -/
theorem close_dup (hfree : files fd = none) :
    Table.close (Function.update files fd (some file)) ((fd : ℕ) : ℤ) = files := by
  unfold Table.close
  rw [descriptor_natCast]
  dsimp only
  rw [Function.update_idem, ← hfree, Function.update_eq_self]

/-- Another descriptor still refers to its file when `newfd` has been closed. -/
theorem file_close (hne : oldfd ≠ newfd) : (files.close newfd).file oldfd = files.file oldfd := by
  unfold Table.close Table.file
  cases hnew : descriptor limit newfd with
  | none => rfl
  | some fd =>
    cases hold : descriptor limit oldfd with
    | none => rfl
    | some fd' =>
      have hfd : fd' ≠ fd := by
        rintro rfl
        exact hne ((descriptor_eq_some hold).trans (descriptor_eq_some hnew).symm)
      exact Function.update_of_ne hfd ..

/-- A call whose `dup` fails. -/
theorem my_dup2_of_dup (hpos : ¬(oldfd < 0 ∨ newfd < 0)) (hne : oldfd ≠ newfd)
    (hdup : files.dup oldfd = (-1, files)) :
    my_dup2 junk n files oldfd newfd = some ⟨-1, files, stack_new, []⟩ := by
  unfold my_dup2
  rw [if_neg hpos, if_neg hne, hdup]
  rfl

/-- A call whose `dup` succeeds. -/
theorem my_dup2_eq (hpos : ¬(oldfd < 0 ∨ newfd < 0)) (hne : oldfd ≠ newfd)
    (hfile : files.file oldfd = some file) (hfree : files.lowestFree = some fd) :
    my_dup2 junk n files oldfd newfd =
      (fill oldfd newfd n (files.close newfd) stack_new).bind fun p =>
        some ⟨newfd, (drain junk p.1 p.2).1, p.2, (drain junk p.1 p.2).2⟩ := by
  unfold my_dup2
  rw [if_neg hpos, if_neg hne, dup_eq hfile hfree]
  dsimp only
  rw [if_neg (by omega), close_dup (lowestFree_eq_some.mp hfree).1]
  rfl

/-- A call that returns -1 without having changed anything has the effect. -/
theorem hasEffect_of_error
    (h : my_dup2 junk 0 files oldfd newfd = some ⟨-1, files, stack_new, []⟩) :
    HasEffect junk files oldfd newfd :=
  ⟨0, _, h, fun hret hnewfd => absurd hret (by show (-1 : ℤ) ≠ newfd; omega), fun _ _ => rfl,
    fun _ hi => absurd hi List.not_mem_nil⟩

/-- The first duplicate is `newfd` when no descriptor below that is free. -/
theorem hasEffect_of_forall (hpos : ¬(oldfd < 0 ∨ newfd < 0)) (hne : oldfd ≠ newfd)
    (hfile : files.file oldfd = some file) (hfree : files.lowestFree = some fd')
    (hnewfd : descriptor limit newfd = some fd) (hbelow : ∀ fd' < fd, files fd' ≠ none) :
    HasEffect junk files oldfd newfd := by
  have hclose : files.close newfd = Function.update files fd none := by
    unfold Table.close
    rw [hnewfd]
  have hlowest : (files.close newfd).lowestFree = some fd := by
    rw [hclose, lowestFree_eq_some]
    refine ⟨Function.update_self .., fun fd' hlt => ?_⟩
    rw [Function.update_of_ne (ne_of_lt hlt)]
    exact hbelow fd' hlt
  have hdup : (files.close newfd).dup oldfd =
      (newfd, Function.update files fd (some file)) := by
    rw [dup_eq ((file_close hne).trans hfile) hlowest, ← descriptor_eq_some hnewfd, hclose,
      Function.update_idem]
  have hfill : fill oldfd newfd 1 (files.close newfd) stack_new =
      some (Function.update files fd (some file), stack_new) := by
    unfold fill
    rw [hdup]
    exact if_neg (not_not.mpr rfl)
  refine ⟨1, ⟨newfd, Function.update files fd (some file), stack_new, []⟩, ?_, fun _ _ => ?_,
    fun hret => ?_, fun _ hi => absurd hi List.not_mem_nil⟩
  · rw [my_dup2_eq hpos hne hfile hfree, hfill]
    show some (Result.mk newfd (drain junk _ stack_new).1 stack_new _) = _
    rw [drain_stack_new]
  · exact ⟨file, fd, hfile, hnewfd, rfl⟩
  · exact absurd hret (by show newfd ≠ -1; omega)

/-- Otherwise something is pushed, and read from the wrong place. -/
theorem not_hasEffect_of_exists (hpos : ¬(oldfd < 0 ∨ newfd < 0)) (hne : oldfd ≠ newfd)
    (hfile : files.file oldfd = some file) (hfree : files.lowestFree = some fd')
    (hnewfd : descriptor limit newfd = some fd) (hbelow : ¬∀ fd' < fd, files fd' ≠ none) :
    ¬HasEffect junk files oldfd newfd := by
  rintro ⟨n, r, hr, -, -, hreads⟩
  rw [my_dup2_eq hpos hne hfile hfree] at hr
  obtain ⟨⟨files', s⟩, hfill, hr⟩ := Option.bind_eq_some_iff.mp hr
  obtain rfl := Option.some.inj hr
  have hclose : files.close newfd = Function.update files fd none := by
    unfold Table.close
    rw [hnewfd]
  -- The first duplicate is another descriptor, which is pushed.
  have hfirst : ((files.close newfd).dup oldfd).1 ≠ newfd := by
    cases hlowest : (files.close newfd).lowestFree with
    | none =>
      rw [lowestFree_eq_none, hclose] at hlowest
      exact absurd (Function.update_self ..) (hlowest fd)
    | some fd₁ =>
      rw [dup_eq ((file_close hne).trans hfile) hlowest]
      rintro heq
      have hfd : fd₁ = fd := by
        have hsame := (descriptor_natCast fd₁).symm.trans (heq ▸ hnewfd)
        exact Option.some.inj hsame
      rw [lowestFree_eq_some, hclose, hfd] at hlowest
      refine hbelow fun fd' hlt => ?_
      have hfd' := hlowest.2 fd' hlt
      rwa [Function.update_of_ne (ne_of_lt hlt)] at hfd'
  have hsize : s.Packed ∧ 0 < s.size := by
    cases n with
    | zero => cases hfill
    | succ n =>
      unfold fill at hfill
      dsimp only at hfill
      rw [if_pos hfirst] at hfill
      exact (packed_stack_new.push _).fill hfill
  obtain ⟨i, hi, hdata⟩ : ∃ i ∈ (drain junk files' s).2, s.data i = none :=
    hsize.1.reads_drain hsize.2
  exact hreads i hi hdata

end Lemmas

/-- `my_dup2` has the effect of `dup2` exactly in the calls that `Manages` lists, whatever the
memory of its stack holds. -/
theorem hasEffect_iff {F : Type} {limit : ℕ} (junk : ℕ → ℤ) (files : Table F limit)
    (oldfd newfd : ℤ) : HasEffect junk files oldfd newfd ↔ Manages files oldfd newfd := by
  by_cases hpos : oldfd < 0 ∨ newfd < 0
  · exact iff_of_true (hasEffect_of_error (if_pos hpos)) (Or.inl hpos)
  by_cases hne : oldfd ≠ newfd
  · have hmanages : Manages files oldfd newfd ↔ files.file oldfd = none ∨ (∀ fd, files fd ≠ none) ∨
        ∃ fd, descriptor limit newfd = some fd ∧ ∀ fd' < fd, files fd' ≠ none := by
      unfold Manages
      rw [or_iff_right hpos, or_iff_right fun h => hne h.1, and_iff_right hne]
    rw [hmanages]
    cases hfile : files.file oldfd with
    | none =>
      refine iff_of_true (hasEffect_of_error (my_dup2_of_dup hpos hne ?_)) (Or.inl rfl)
      rw [Table.dup, hfile]
    | some file =>
      rw [or_iff_right (Option.some_ne_none file)]
      cases hfree : files.lowestFree with
      | none =>
        refine iff_of_true (hasEffect_of_error (my_dup2_of_dup hpos hne ?_))
          (Or.inl (lowestFree_eq_none.mp hfree))
        rw [Table.dup, hfile, hfree]
      | some fd' =>
        have hsome : ¬∀ fd, files fd ≠ none := fun hall =>
          hall fd' (lowestFree_eq_some.mp hfree).1
        rw [or_iff_right hsome]
        cases hnewfd : descriptor limit newfd with
        | none =>
          -- The first loop pushes -1 for ever once the table is full.
          refine iff_of_false ?_ fun ⟨_, hfd, _⟩ => by cases hfd
          rintro ⟨n, r, hr, -⟩
          rw [my_dup2_eq hpos hne hfile hfree, fill_eq_none hnewfd (by omega)] at hr
          cases hr
        | some fd =>
          by_cases hbelow : ∀ fd' < fd, files fd' ≠ none
          · exact iff_of_true (hasEffect_of_forall hpos hne hfile hfree hnewfd hbelow)
              ⟨fd, rfl, hbelow⟩
          · refine iff_of_false (not_hasEffect_of_exists hpos hne hfile hfree hnewfd hbelow) ?_
            rintro ⟨_, hfd, hall⟩
            obtain rfl := Option.some.inj hfd
            exact hbelow hall
  · -- The call returns `newfd` at once, whether it is open or not.
    obtain rfl := not_not.mp hne
    have hcall : ∀ n, my_dup2 junk n files oldfd oldfd = some ⟨oldfd, files, stack_new, []⟩ := by
      intro n
      unfold my_dup2
      rw [if_neg hpos, if_pos rfl]
    have hmanages : Manages files oldfd oldfd ↔ files.file oldfd ≠ none := by
      unfold Manages
      rw [or_iff_right hpos, or_iff_left fun h => h.1 rfl, and_iff_right rfl]
    rw [hmanages]
    constructor
    · rintro ⟨n, r, hr, hret, -⟩ hnone
      obtain rfl := Option.some.inj ((hcall n).symm.trans hr)
      obtain ⟨file, -, hfile, -⟩ := hret rfl (by omega)
      rw [hnone] at hfile
      cases hfile
    · intro hopen
      obtain ⟨file, hfile⟩ := Option.ne_none_iff_exists'.mp hopen
      obtain ⟨fd, hfd, hfiles⟩ := Option.bind_eq_some_iff.mp hfile
      refine ⟨0, _, hcall 0, fun _ _ => ⟨file, fd, hfile, hfd, ?_⟩, fun _ _ => rfl,
        fun _ hi => absurd hi List.not_mem_nil⟩
      rw [← hfiles, Function.update_eq_self]

/-- A table in which only the first of three descriptors is open. -/
def gap : Table Unit 3 := fun fd => if fd = 0 then some () else none

/-- With a free descriptor below `newfd`, the stack is read where nothing has been pushed. -/
theorem not_hasEffect_gap : ¬∀ (F : Type) (limit : ℕ) (junk : ℕ → ℤ) (files : Table F limit)
    (oldfd newfd : ℤ), HasEffect junk files oldfd newfd := by
  intro h
  have hfile : gap.file 0 = some () := rfl
  have hfree : gap.lowestFree = some 1 := rfl
  have hnewfd : descriptor 3 2 = some 2 := rfl
  exact not_hasEffect_of_exists (by decide) (by decide) hfile hfree hnewfd
    (fun hall => hall 1 (by decide) rfl) (h Unit 3 (fun _ => 0) gap 0 2)

end CxxPandora.Apue.Dup2
