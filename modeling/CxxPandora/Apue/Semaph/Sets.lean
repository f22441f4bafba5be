import CxxPandora.Apue.Semaph.Model
import CxxPandora.Lib.Tally

/-!
# What the system calls do to a set

The counter of a set that is ready for use and the processes that have the set make `BIGCOUNT`, and
its value and what the processes have taken make the initial value (`Ready`). In a set that nobody
has made ready yet all that is undone when a process ends is the lock (`Uninit`). In both cases at
most one process has the lock (`SemSet.LockedBy`). There is one rule for each use of `semop`,
`SETVAL` and the end of a process.
-/

namespace CxxPandora.Apue.Semaph

open Lib

variable {τ : Type} {P : ℤ → Prop} {S : SemSet τ} {t t' : τ} {num m : SemNum} {h : τ → ℕ}
  {owner : Option τ}

/-! ## What is known of a set -/

/-- A set that nobody has made ready for use. -/
structure Uninit (h : τ → ℕ) (S : SemSet τ) : Prop where
  counter : S.semval .counter = 0
  free : ∀ t, h t = 0
  counter_adj : ∀ t, S.semadj t .counter = 0
  value_adj : ∀ t, S.semadj t .value = 0

/-- The initial value is set. -/
theorem Uninit.setval_value (hS : Uninit h S) (val : ℤ) : Uninit h (S.setval .value val) :=
  ⟨hS.counter, hS.free, hS.counter_adj, fun _ => rfl⟩

section

variable [Fintype τ]

/-- A set that is ready for use: `h` says how often each process has it. -/
structure Ready (P : ℤ → Prop) (h : τ → ℕ) (S : SemSet τ) : Prop where
  counter : S.semval .counter + ∑ t, (h t : ℤ) = BIGCOUNT
  pos : 0 < S.semval .counter
  counter_adj : ∀ t, S.semadj t .counter = h t
  value_adj : ∀ t, 0 ≤ S.semadj t .value
  value : ∃ v, P v ∧ v ≤ SEMVMX ∧ S.semval .value + ∑ t, S.semadj t .value = v

/-- The set as far as it is not the lock. -/
structure Phase (P : ℤ → Prop) (h : τ → ℕ) (S : SemSet τ) : Prop where
  nonneg : 0 ≤ S.semval .value
  le : S.semval .value ≤ SEMVMX
  phase : Uninit h S ∨ Ready P h S

/-- A set that is ready for use counts at least one more process. -/
theorem Phase.ready (hS : Phase P h S) (hne : S.semval .counter ≠ 0) : Ready P h S :=
  hS.phase.resolve_left fun huninit => hne huninit.counter

/-- A set that counts none is not ready for use. -/
theorem Phase.uninit (hS : Phase P h S) (hzero : S.semval .counter = 0) : Uninit h S :=
  hS.phase.resolve_right fun hready => hready.pos.ne' hzero

/-- A set that a process has is ready for use. -/
theorem Phase.ready_of_pos (hS : Phase P h S) (hpos : 0 < h t) : Ready P h S :=
  hS.phase.resolve_left fun huninit => hpos.ne' (huninit.free t)

/-- The counter is never more than `BIGCOUNT`. -/
theorem Phase.counter_le (hS : Phase P h S) : S.semval .counter ≤ BIGCOUNT := by
  rcases hS.phase with huninit | hready
  · rw [huninit.counter]
    decide
  · have hcounter := hready.counter
    have hnonneg : (0 : ℤ) ≤ ∑ t, (h t : ℤ) := Finset.sum_nonneg fun t _ => Int.natCast_nonneg _
    omega

/-- A set that has just been created. -/
theorem phase_create (semid : ℕ) : Phase P (fun _ => 0) (SemSet.create semid : SemSet τ) :=
  ⟨Int.le_refl _, (by decide : (0 : ℤ) ≤ SEMVMX),
    Or.inl ⟨rfl, fun _ => rfl, fun _ => rfl, fun _ => rfl⟩⟩

/-- The counter is set to its initial value. -/
theorem Uninit.setval_counter (hS : Uninit h S) (hP : P (S.semval .value))
    (hle : S.semval .value ≤ SEMVMX) : Ready P h (S.setval .counter BIGCOUNT) := by
  have hsum : ∑ t, (h t : ℤ) = 0 := Finset.sum_eq_zero fun t _ => by rw [hS.free t]; rfl
  have hvalues : ∑ t, S.semadj t .value = 0 := Finset.sum_eq_zero fun t _ => hS.value_adj t
  refine ⟨by rw [hsum]; rfl, (by decide : 0 < BIGCOUNT), fun t => ?_, fun t => ?_,
    S.semval .value, hP, hle, ?_⟩
  · rw [hS.free t]
    rfl
  · show 0 ≤ S.semadj t .value
    rw [hS.value_adj t]
  · show S.semval .value + ∑ t, S.semadj t .value = _
    rw [hvalues, Int.add_zero]

end

variable [DecidableEq τ]

/-- The lock of a set, and what is undone of it, are as the one process says that has it, if any. -/
structure SemSet.LockedBy (S : SemSet τ) (owner : Option τ) : Prop where
  val : S.semval .lock = if owner.isSome then 1 else 0
  adj : ∀ t, S.semadj t .lock = if owner = some t then -1 else 0

/-- Nobody has the lock. -/
theorem SemSet.LockedBy.eq_none (hS : S.LockedBy owner) (hzero : S.semval .lock = 0) :
    owner = none := by
  have hval := hS.val
  cases owner with
  | none => rfl
  | some t =>
    rw [hzero] at hval
    exact absurd (show (0 : ℤ) = 1 from hval) (by decide)

/-! ## One operation -/

/-- The members of a set to which a process has added. -/
theorem add_semval (S : SemSet τ) (t : τ) (num m : SemNum) (op : ℤ) (undo : Bool) :
    (S.add t num op undo).semval m = if m = num then S.semval num + op else S.semval m :=
  Function.update_apply ..

/-- What is undone for the processes of a set to which one has added. -/
theorem add_semadj (S : SemSet τ) (t t' : τ) (num m : SemNum) (op : ℤ) :
    (S.add t num op true).semadj t' m =
      if t' = t ∧ m = num then S.semadj t num - op else S.semadj t' m := by
  show Function.update S.semadj t (Function.update (S.semadj t) num (S.semadj t num - op)) t' m = _
  by_cases ht : t' = t
  · subst ht
    rw [Function.update_self, Function.update_apply]
    by_cases hm : m = num
    · rw [if_pos hm, if_pos ⟨rfl, hm⟩]
    · rw [if_neg hm, if_neg fun h => hm h.2]
  · rw [Function.update_of_ne ht, if_neg fun h => ht h.1]

/-- What is undone after a process has ended. -/
theorem undo_semadj (S : SemSet τ) (t t' : τ) (num : SemNum) :
    (S.undo t).semadj t' num = if t' = t then 0 else S.semadj t' num := by
  show Function.update S.semadj t (fun _ => 0) t' num = _
  by_cases ht : t' = t
  · rw [ht, Function.update_self, if_pos rfl]
  · rw [Function.update_of_ne ht, if_neg ht]

/-- A member of a set after a process has ended. -/
theorem undo_semval (hle : 0 ≤ S.semval num + S.semadj t num)
    (hmax : S.semval num + S.semadj t num ≤ SEMVMX) :
    (S.undo t).semval num = S.semval num + S.semadj t num := by
  show min SEMVMX (max 0 (S.semval num + S.semadj t num)) = _
  omega

/-- An operation that is possible. -/
theorem apply_ok {op : ℤ} {undo : Bool} (hne : op ≠ 0) (hle : 0 ≤ S.semval num + op)
    (hmax : S.semval num + op ≤ SEMVMX) :
    S.apply t ⟨num, op, undo⟩ = .ok (S.add t num op undo) := by
  unfold SemSet.apply
  rw [if_neg hne, if_neg (not_lt.mpr hle), if_neg (not_lt.mpr hmax)]

/-- An operation that would make a member less than 0. -/
theorem apply_blocked {op : ℤ} {undo : Bool} (hne : op ≠ 0) (hlt : S.semval num + op < 0) :
    S.apply t ⟨num, op, undo⟩ = .blocked := by
  unfold SemSet.apply
  rw [if_neg hne, if_pos hlt]

/-- Waiting for a member to equal 0, when it does. -/
theorem apply_wait {undo : Bool} (hzero : S.semval num = 0) : S.apply t ⟨num, 0, undo⟩ = .ok S := by
  unfold SemSet.apply
  rw [if_pos rfl, if_pos hzero]

/-- Waiting for a member to equal 0, when it does not. -/
theorem apply_wait_blocked {undo : Bool} (hne : S.semval num ≠ 0) :
    S.apply t ⟨num, 0, undo⟩ = .blocked := by
  unfold SemSet.apply
  rw [if_pos rfl, if_neg hne]

/-- The operations that follow one that is possible. -/
theorem semop_cons {S' : SemSet τ} {sop : Sembuf} {sops : List Sembuf}
    (happly : S.apply t sop = .ok S') : S.semop t (sop :: sops) = S'.semop t sops := by
  rw [SemSet.semop, happly]

/-- None of the operations happens when one has to wait. -/
theorem semop_cons_blocked {sop : Sembuf} {sops : List Sembuf}
    (happly : S.apply t sop = .blocked) : S.semop t (sop :: sops) = .blocked := by
  rw [SemSet.semop, happly]

/-! ## The operations of the functions -/

/-- The lock is taken when nobody has it. -/
theorem semop_lock (hzero : S.semval .lock = 0) :
    S.semop t op_lock = .ok (S.add t .lock 1 true) := by
  unfold op_lock
  rw [semop_cons (apply_wait hzero),
    semop_cons (apply_ok (by decide) (by rw [hzero]; decide) (by rw [hzero]; decide))]
  rfl

/-- The lock is waited for when somebody has it. -/
theorem semop_lock_blocked (hne : S.semval .lock ≠ 0) : S.semop t op_lock = .blocked :=
  semop_cons_blocked (apply_wait_blocked hne)

/-- `sem_close` takes the lock and counts one process less. -/
theorem semop_close (hzero : S.semval .lock = 0) (hle : 0 ≤ S.semval .counter)
    (hmax : S.semval .counter < SEMVMX) :
    S.semop t op_close = .ok ((S.add t .lock 1 true).add t .counter 1 true) := by
  have hcounter : (S.add t .lock 1 true).semval .counter = S.semval .counter := by
    rw [add_semval, if_neg (by decide)]
  unfold op_close
  rw [semop_cons (apply_wait hzero),
    semop_cons (apply_ok (by decide) (by rw [hzero]; decide) (by rw [hzero]; decide)),
    semop_cons (apply_ok (by decide) (by rw [hcounter]; omega) (by rw [hcounter]; omega))]
  rfl

/-- `sem_close` waits for the lock. -/
theorem semop_close_blocked (hne : S.semval .lock ≠ 0) : S.semop t op_close = .blocked :=
  semop_cons_blocked (apply_wait_blocked hne)

/-- `sem_create` counts one process more and gives the lock back. -/
theorem semop_endcreate (hone : S.semval .lock = 1) (hpos : 0 < S.semval .counter)
    (hmax : S.semval .counter ≤ SEMVMX) :
    S.semop t op_endcreate = .ok ((S.add t .counter (-1) true).add t .lock (-1) true) := by
  have hlock : (S.add t .counter (-1) true).semval .lock = 1 := by
    rw [add_semval, if_neg (by decide), hone]
  unfold op_endcreate
  rw [semop_cons (apply_ok (by decide) (by omega) (by omega)),
    semop_cons (apply_ok (by decide) (by rw [hlock]; decide) (by rw [hlock]; decide))]
  rfl

/-- `sem_open` counts one process more. -/
theorem semop_open (hpos : 0 < S.semval .counter) (hmax : S.semval .counter ≤ SEMVMX) :
    S.semop t op_open = .ok (S.add t .counter (-1) true) := by
  unfold op_open
  rw [semop_cons (apply_ok (by decide) (by omega) (by omega))]
  rfl

/-- `sem_open` waits until the set is ready for use. -/
theorem semop_open_blocked (hzero : S.semval .counter = 0) : S.semop t op_open = .blocked :=
  semop_cons_blocked (apply_blocked (by decide) (by rw [hzero]; decide))

/-- The lock is given back. -/
theorem semop_unlock (hone : S.semval .lock = 1) :
    S.semop t op_unlock = .ok (S.add t .lock (-1) true) := by
  unfold op_unlock
  rw [semop_cons (apply_ok (by decide) (by rw [hone]; decide) (by rw [hone]; decide))]
  rfl

/-- `sem_op` changes the value. -/
theorem semop_op {value : ℤ} (hne : toShort value ≠ 0) (hle : 0 ≤ S.semval .value + toShort value)
    (hmax : S.semval .value + toShort value ≤ SEMVMX) :
    S.semop t (op_op value) = .ok (S.add t .value (toShort value) true) := by
  unfold op_op
  rw [semop_cons (apply_ok hne hle hmax)]
  rfl

/-- `sem_op` waits. -/
theorem semop_op_blocked {value : ℤ} (hne : toShort value ≠ 0)
    (hlt : S.semval .value + toShort value < 0) : S.semop t (op_op value) = .blocked :=
  semop_cons_blocked (apply_blocked hne hlt)

/-! ## The lock -/

/-- The process that is to undo the lock has it. -/
theorem SemSet.LockedBy.eq_some (hS : S.LockedBy owner) (hadj : S.semadj t .lock = -1) :
    owner = some t := by
  by_contra hne
  have hadj' := hS.adj t
  rw [if_neg hne, hadj] at hadj'
  exact absurd hadj' (by decide)

/-- A process takes the lock. -/
theorem SemSet.LockedBy.take (hS : S.LockedBy none) (t : τ) :
    (S.add t .lock 1 true).LockedBy (some t) := by
  refine ⟨?_, fun t' => ?_⟩
  · rw [add_semval, if_pos rfl, hS.val]
    rfl
  · rw [add_semadj, hS.adj, hS.adj, if_neg (Option.some_ne_none _).symm,
      if_neg (Option.some_ne_none _).symm]
    by_cases ht : t' = t
    · rw [if_pos ⟨ht, rfl⟩, if_pos (congrArg some ht.symm)]
      rfl
    · rw [if_neg fun h => ht h.1, if_neg fun h => ht (Option.some.inj h).symm]

/-- A process gives the lock back. -/
theorem SemSet.LockedBy.give (hS : S.LockedBy (some t)) :
    (S.add t .lock (-1) true).LockedBy none := by
  refine ⟨?_, fun t' => ?_⟩
  · rw [add_semval, if_pos rfl, hS.val]
    rfl
  · rw [add_semadj, hS.adj, hS.adj, if_pos rfl, if_neg (Option.some_ne_none _).symm]
    by_cases ht : t' = t
    · rw [if_pos ⟨ht, rfl⟩]
      rfl
    · rw [if_neg fun h => ht h.1, if_neg fun h => ht (Option.some.inj h).symm]

/-- A process adds to another member. -/
theorem SemSet.LockedBy.add (hS : S.LockedBy owner) (t : τ) (hnum : num ≠ .lock) (op : ℤ) :
    (S.add t num op true).LockedBy owner := by
  refine ⟨?_, fun t' => ?_⟩
  · rw [add_semval, if_neg hnum.symm, hS.val]
  · rw [add_semadj, if_neg fun h => hnum h.2.symm, hS.adj]

/-- Another member is set. -/
theorem SemSet.LockedBy.setval (hS : S.LockedBy owner) (hnum : num ≠ .lock) (val : ℤ) :
    (S.setval num val).LockedBy owner := by
  refine ⟨?_, fun t' => ?_⟩
  · rw [← hS.val]
    exact Function.update_of_ne hnum.symm _ _
  · rw [← hS.adj]
    exact Function.update_of_ne hnum.symm _ _

/-- A process ends, and with it the lock that it has. -/
theorem SemSet.LockedBy.undo (hS : S.LockedBy owner) (t : τ) :
    (S.undo t).LockedBy (if owner = some t then none else owner) := by
  have hother : ∀ t', t' ≠ t → (S.undo t).semadj t' .lock = S.semadj t' .lock := fun t' ht' => by
    rw [undo_semadj, if_neg ht']
  have hself : (S.undo t).semadj t .lock = 0 := by rw [undo_semadj, if_pos rfl]
  have hval : (S.undo t).semval .lock =
      min SEMVMX (max 0 (S.semval .lock + S.semadj t .lock)) := rfl
  by_cases howner : owner = some t
  · subst howner
    rw [if_pos rfl]
    refine ⟨?_, fun t' => ?_⟩
    · rw [hval, hS.val, hS.adj, if_pos rfl]
      rfl
    · rw [if_neg (Option.some_ne_none _).symm]
      by_cases ht : t' = t
      · rw [ht, hself]
      · rw [hother t' ht, hS.adj, if_neg fun h => ht (Option.some.inj h).symm]
  · rw [if_neg howner]
    refine ⟨?_, fun t' => ?_⟩
    · rw [hval, hS.val, hS.adj, if_neg howner]
      cases owner <;> rfl
    · by_cases ht : t' = t
      · rw [ht, hself, if_neg howner]
      · rw [hother t' ht, hS.adj]

/-! ## The counter and the value -/

section Phases

variable [Fintype τ]

/-- The lock is none of the other members. -/
theorem Phase.add_lock (hS : Phase P h S) (t : τ) (op : ℤ) : Phase P h (S.add t .lock op true) := by
  have hval : ∀ num, num ≠ .lock → (S.add t .lock op true).semval num = S.semval num :=
    fun num hnum => by rw [add_semval, if_neg hnum]
  have hadj : ∀ t' num, num ≠ .lock → (S.add t .lock op true).semadj t' num = S.semadj t' num :=
    fun t' num hnum => by rw [add_semadj, if_neg fun h => hnum h.2]
  refine ⟨by rw [hval _ (by decide)]; exact hS.nonneg, by rw [hval _ (by decide)]; exact hS.le, ?_⟩
  refine hS.phase.imp (fun huninit => ?_) fun hready => ?_
  · exact ⟨by rw [hval _ (by decide)]; exact huninit.counter, huninit.free,
      fun t' => by rw [hadj _ _ (by decide)]; exact huninit.counter_adj t',
      fun t' => by rw [hadj _ _ (by decide)]; exact huninit.value_adj t'⟩
  · have hsum : ∑ t', (S.add t .lock op true).semadj t' .value = ∑ t', S.semadj t' .value :=
      Finset.sum_congr rfl fun t' _ => hadj t' _ (by decide)
    refine ⟨by rw [hval _ (by decide)]; exact hready.counter,
      by rw [hval _ (by decide)]; exact hready.pos,
      fun t' => by rw [hadj _ _ (by decide)]; exact hready.counter_adj t',
      fun t' => by rw [hadj _ _ (by decide)]; exact hready.value_adj t', ?_⟩
    rw [hval _ (by decide), hsum]
    exact hready.value

/-- How often the processes have a set, when one of them has it once more or less. -/
theorem sum_update_cast (h : τ → ℕ) (t : τ) (n : ℕ) :
    ∑ t', (Function.update h t n t' : ℤ) + h t = ∑ t', (h t' : ℤ) + n := by
  have hcast : (fun t' => (Function.update h t n t' : ℤ)) =
      Function.update (fun t' => (h t' : ℤ)) t n :=
    Function.comp_update (fun k : ℕ => (k : ℤ)) h t n
  rw [hcast]
  exact sum_update_add _ t _

/-- A process more, or less, is counted. -/
theorem Ready.count (hS : Ready P h S) {n : ℕ} {op : ℤ} (hn : (n : ℤ) = h t - op)
    (hpos : 0 < S.semval .counter + op) :
    Ready P (Function.update h t n) (S.add t .counter op true) := by
  have hcounter : (S.add t .counter op true).semval .counter = S.semval .counter + op := by
    rw [add_semval, if_pos rfl]
  have hvalue : (S.add t .counter op true).semval .value = S.semval .value := by
    rw [add_semval, if_neg (by decide)]
  have hadj : ∀ t', (S.add t .counter op true).semadj t' .value = S.semadj t' .value :=
    fun t' => by rw [add_semadj, if_neg fun h => absurd h.2 (by decide)]
  have hsum := sum_update_cast h t n
  have hbefore := hS.counter
  refine ⟨by rw [hcounter]; omega, by rw [hcounter]; exact hpos, fun t' => ?_,
    fun t' => by rw [hadj]; exact hS.value_adj t', ?_⟩
  · rw [add_semadj]
    by_cases ht : t' = t
    · rw [if_pos ⟨ht, rfl⟩, ht, Function.update_self, hS.counter_adj, hn]
    · rw [if_neg fun h => ht h.1, Function.update_of_ne ht, hS.counter_adj]
  · rw [hvalue, Finset.sum_congr rfl fun t' _ => hadj t']
    exact hS.value

/-- A process takes some of the value, or gives some back. -/
theorem Ready.change (hS : Ready P h S) {op : ℤ} (hop : op ≤ S.semadj t .value) :
    Ready P h (S.add t .value op true) := by
  have hcounter : (S.add t .value op true).semval .counter = S.semval .counter := by
    rw [add_semval, if_neg (by decide)]
  have hvalue : (S.add t .value op true).semval .value = S.semval .value + op := by
    rw [add_semval, if_pos rfl]
  have hadj : (fun t' => (S.add t .value op true).semadj t' .value) =
      Function.update (fun t' => S.semadj t' .value) t (S.semadj t .value - op) := by
    funext t'
    rw [add_semadj, Function.update_apply]
    by_cases ht : t' = t
    · rw [if_pos ⟨ht, rfl⟩, if_pos ht]
    · rw [if_neg fun h => ht h.1, if_neg ht]
  have hsum : ∑ t', (S.add t .value op true).semadj t' .value + S.semadj t .value =
      ∑ t', S.semadj t' .value + (S.semadj t .value - op) := by
    rw [hadj]
    exact sum_update_add (fun t' => S.semadj t' .value) t _
  obtain ⟨v, hP, hv, hvalues⟩ := hS.value
  refine ⟨by rw [hcounter]; exact hS.counter, by rw [hcounter]; exact hS.pos, fun t' => ?_,
    fun t' => ?_, v, hP, hv, by rw [hvalue]; omega⟩
  · rw [add_semadj, if_neg fun h => absurd h.2 (by decide)]
    exact hS.counter_adj t'
  · have hnonneg := hS.value_adj t'
    rw [add_semadj]
    split_ifs
    · omega
    · exact hnonneg

/-- A process ends that has, or has not, closed the set. -/
theorem Phase.undo (hS : Phase P h S) (t : τ) : Phase P (Function.update h t 0) (S.undo t) := by
  have hnonneg := hS.nonneg
  have hle := hS.le
  rcases hS.phase with huninit | hready
  · have hcounter := huninit.counter
    have hcadj := huninit.counter_adj t
    have hvadj := huninit.value_adj t
    have hvalue : (S.undo t).semval .value = S.semval .value := by
      rw [undo_semval (by omega) (by omega), hvadj, Int.add_zero]
    refine ⟨by rw [hvalue]; exact hnonneg, by rw [hvalue]; exact hle, Or.inl
      ⟨?_, fun t' => ?_, fun t' => ?_, fun t' => ?_⟩⟩
    · rw [undo_semval (by omega) (by rw [hcounter, hcadj]; decide), hcounter, hcadj]
      rfl
    · rw [Function.update_apply, huninit.free]
      exact ite_self 0
    · rw [undo_semadj, huninit.counter_adj]
      exact ite_self 0
    · rw [undo_semadj, huninit.value_adj]
      exact ite_self 0
  · have hcounter := hready.counter
    have hpos := hready.pos
    have hcadj := hready.counter_adj t
    have hvadj := hready.value_adj t
    obtain ⟨v, hP, hv, hvalues⟩ := hready.value
    -- What one process has is part of what all have.
    have hone : S.semadj t .value ≤ ∑ t', S.semadj t' .value :=
      Finset.single_le_sum (f := fun t' => S.semadj t' .value) (fun t' _ => hready.value_adj t')
        (Finset.mem_univ t)
    have hone' : (h t : ℤ) ≤ ∑ t', (h t' : ℤ) :=
      Finset.single_le_sum (f := fun t' => (h t' : ℤ)) (fun t' _ => Int.natCast_nonneg _)
        (Finset.mem_univ t)
    have hmax : BIGCOUNT ≤ SEMVMX := by decide
    have hcounter' : (S.undo t).semval .counter = S.semval .counter + h t := by
      rw [undo_semval (by omega) (by omega), hcadj]
    have hvalue' : (S.undo t).semval .value = S.semval .value + S.semadj t .value :=
      undo_semval (by omega) (by omega)
    have hadj : (fun t' => (S.undo t).semadj t' .value) =
        Function.update (fun t' => S.semadj t' .value) t 0 := by
      funext t'
      rw [undo_semadj, Function.update_apply]
    have hsum : ∑ t', (S.undo t).semadj t' .value + S.semadj t .value =
        ∑ t', S.semadj t' .value + 0 := by
      rw [hadj]
      exact sum_update_add (fun t' => S.semadj t' .value) t 0
    have hsum' := sum_update_cast h t 0
    refine ⟨by omega, by omega, Or.inr ⟨by rw [hcounter']; omega, by omega, fun t' => ?_,
      fun t' => ?_, v, hP, hv, by rw [hvalue']; omega⟩⟩
    · rw [undo_semadj, Function.update_apply, hready.counter_adj]
      split_ifs <;> rfl
    · have hnonneg' := hready.value_adj t'
      rw [undo_semadj]
      split_ifs
      · exact Int.le_refl _
      · exact hnonneg'

end Phases

end CxxPandora.Apue.Semaph
