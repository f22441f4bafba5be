import CxxPandora.Lib.DoublyLinked
import CxxPandora.Lib.Machine

/-!
# The job queue

The doubly linked queue of `linux/apue.3e.exs/apue3/Chapter11/exercise_3.c`. Everything that is done
under `q_lock` is one step, and so is a broadcast, which comes after the lock has been released. A
thread that is blocked in `pthread_cond_wait` goes on after a broadcast or for no reason, and takes
the lock again before it goes on. `jobQueue_spec` says that the queue is a deque, and that no
wake-up is lost. The operations on the mutex do not fail.
-/

namespace CxxPandora.Apue.JobQueue

open Lib

/-! ## The queue -/

/-- The queue and the memory of the jobs `ι`, which threads `τ` handle. -/
structure Queue (ι τ : Type) where
  q_head : Option ι
  q_tail : Option ι
  j_next : ι → Option ι
  j_prev : ι → Option ι
  j_id : ι → τ

section Operations

variable {ι τ : Type} [DecidableEq ι]

/-- `job_insert`. -/
def Queue.job_insert (qp : Queue ι τ) (jp : ι) : Queue ι τ :=
  let qp := { qp with
    j_next := Function.update qp.j_next jp qp.q_head
    j_prev := Function.update qp.j_prev jp none }
  match qp.q_head with
  | some head =>
    { qp with j_prev := Function.update qp.j_prev head (some jp), q_head := some jp }
  | none => { qp with q_tail := some jp, q_head := some jp }

/-- `job_append`. -/
def Queue.job_append (qp : Queue ι τ) (jp : ι) : Queue ι τ :=
  let qp := { qp with
    j_next := Function.update qp.j_next jp none
    j_prev := Function.update qp.j_prev jp qp.q_tail }
  match qp.q_tail with
  | some tail =>
    { qp with j_next := Function.update qp.j_next tail (some jp), q_tail := some jp }
  | none => { qp with q_head := some jp, q_tail := some jp }

/-- `job_remove`; `none` when it goes through a null pointer. -/
def Queue.job_remove (qp : Queue ι τ) (jp : ι) : Option (Queue ι τ) :=
  if some jp = qp.q_head then
    let qp := { qp with q_head := qp.j_next jp }
    if qp.q_tail = some jp then some { qp with q_tail := none }
    else do
      let n ← qp.j_next jp
      some { qp with j_prev := Function.update qp.j_prev n (qp.j_prev jp) }
  else if some jp = qp.q_tail then do
    let qp := { qp with q_tail := qp.j_prev jp }
    let p ← qp.j_prev jp
    some { qp with j_next := Function.update qp.j_next p (qp.j_next jp) }
  else do
    let p ← qp.j_prev jp
    let qp := { qp with j_next := Function.update qp.j_next p (qp.j_next jp) }
    let n ← qp.j_next jp
    some { qp with j_prev := Function.update qp.j_prev n (qp.j_prev jp) }

end Operations

/-- The `for` loop of `job_find` from a job on: the job that it stops at. It may pass over at most
`n` jobs; `none` when there are more. -/
def scan {ι τ : Type} [DecidableEq τ] (j_next : ι → Option ι) (j_id : ι → τ) (id : τ) :
    ℕ → Option ι → Option (Option ι)
  | _, none => some none
  | n, some jp =>
    if j_id jp = id then some (some jp)
    else
      match n with
      | 0 => none
      | n + 1 => scan j_next j_id id n (j_next jp)

/-- The queue holds a sequence of jobs. -/
def Queue.Holds {ι τ : Type} (qp : Queue ι τ) (jobs : List ι) : Prop :=
  Doubly qp.j_next qp.j_prev qp.q_head qp.q_tail jobs

section Operations

variable {ι τ : Type} [DecidableEq ι] {qp : Queue ι τ} {jobs : List ι} {jp : ι}

/-- The queue with its ends swapped. -/
def Queue.mirror (qp : Queue ι τ) : Queue ι τ :=
  { qp with q_head := qp.q_tail, q_tail := qp.q_head, j_next := qp.j_prev, j_prev := qp.j_next }

/-- `job_append` is the mirror image of `job_insert`. -/
theorem job_append_eq (qp : Queue ι τ) (jp : ι) :
    qp.job_append jp = (qp.mirror.job_insert jp).mirror := by
  unfold Queue.job_append Queue.job_insert Queue.mirror
  cases qp.q_tail <;> rfl

/-- `job_insert` puts a job in front of the others. -/
theorem Queue.Holds.job_insert (h : qp.Holds jobs) (hjp : jp ∉ jobs) :
    (qp.job_insert jp).Holds (jp :: jobs) := by
  obtain ⟨q_head, q_tail, j_next, j_prev, j_id⟩ := qp
  cases jobs with
  | nil =>
    obtain rfl : q_head = none := h.head_eq
    exact Doubly.push_nil h
  | cons y v =>
    obtain rfl : q_head = some y := h.head_eq
    exact Doubly.push h hjp

/-- `job_append` puts a job behind the others. -/
theorem Queue.Holds.job_append (h : qp.Holds jobs) (hjp : jp ∉ jobs) :
    (qp.job_append jp).Holds (jobs ++ [jp]) := by
  have hmirror : qp.mirror.Holds jobs.reverse := Doubly.mirror h
  have hinsert := hmirror.job_insert fun hmem => hjp (List.mem_reverse.mp hmem)
  have hback := Doubly.mirror hinsert
  rw [List.reverse_cons, List.reverse_reverse] at hback
  rw [job_append_eq]
  exact hback

/-- `job_remove` takes a job out. -/
theorem Queue.Holds.job_remove (h : qp.Holds jobs) (hjp : jp ∈ jobs) :
    ∃ qp', qp.job_remove jp = some qp' ∧ qp'.Holds (jobs.erase jp) ∧ qp'.j_id = qp.j_id := by
  obtain ⟨u, v, rfl⟩ := List.append_of_mem hjp
  have hhead : some jp = qp.q_head ↔ u = [] := eq_comm.trans h.head_eq_some_iff
  have htail : qp.q_tail = some jp ↔ v = [] := h.tail_eq_some_iff
  have hu : jp ∉ u := fun hmem =>
    (List.nodup_append.mp h.nodup).2.2 jp hmem jp List.mem_cons_self rfl
  rw [List.erase_append_right _ hu, List.erase_cons_head]
  unfold Queue.job_remove
  rcases u.eq_nil_or_concat with rfl | ⟨u, p, rfl⟩
  · rw [if_pos (hhead.mpr rfl)]
    cases v with
    | nil =>
      -- The only job.
      have hnext : qp.j_next jp = none := h.forth.2
      rw [if_pos (htail.mpr rfl), hnext]
      exact ⟨_, rfl, Doubly.nil, rfl⟩
    | cons n v =>
      -- The first job of several.
      have hnext : qp.j_next jp = some n := Doubly.next_eq h
      rw [if_neg (mt htail.mp (List.cons_ne_nil n v))]
      dsimp only
      rw [hnext]
      exact ⟨_, rfl, hnext ▸ Doubly.pop h, rfl⟩
  · rw [List.concat_eq_append] at h hhead hu ⊢
    have hne : u ++ [p] ≠ [] := List.append_ne_nil_of_right_ne_nil u (List.cons_ne_nil p [])
    have hjpp : jp ≠ p := fun hjpp => hu (List.mem_append_right u (List.mem_singleton.mpr hjpp))
    rw [if_neg (mt hhead.mp hne)]
    cases v with
    | nil =>
      -- The last job of several.
      have hlast : qp.Holds (u ++ [p, jp]) := List.append_assoc u [p] [jp] ▸ h
      have hprev : qp.j_prev jp = some p := Doubly.prev_eq hlast
      rw [if_pos (htail.mpr rfl).symm, List.append_nil]
      dsimp only
      rw [hprev]
      exact ⟨_, rfl, hprev ▸ Doubly.pop_last hlast, rfl⟩
    | cons n v =>
      -- A job between two others.
      have hnext : qp.j_next jp = some n := Doubly.next_eq h
      rw [List.append_assoc, List.singleton_append] at h ⊢
      have hprev : qp.j_prev jp = some p := Doubly.prev_eq h
      rw [if_neg fun heq => absurd (htail.mp heq.symm) (List.cons_ne_nil n v)]
      refine ⟨{ qp with
        j_next := Function.update qp.j_next p (qp.j_next jp)
        j_prev := Function.update qp.j_prev n (qp.j_prev jp) }, ?_, Doubly.unlink h, rfl⟩
      refine Option.bind_eq_some_iff.mpr ⟨p, hprev, Option.bind_eq_some_iff.mpr ⟨n, ?_, rfl⟩⟩
      show Function.update qp.j_next p (qp.j_next jp) jp = some n
      rw [Function.update_of_ne hjpp, hnext]

/-- `job_insert` does not change whose job it is. -/
theorem job_insert_j_id (qp : Queue ι τ) (jp : ι) : (qp.job_insert jp).j_id = qp.j_id := by
  unfold Queue.job_insert
  cases qp.q_head <;> rfl

/-- Nor does `job_append`. -/
theorem job_append_j_id (qp : Queue ι τ) (jp : ι) : (qp.job_append jp).j_id = qp.j_id := by
  rw [job_append_eq]
  exact job_insert_j_id qp.mirror jp

end Operations

section Scan

variable {ι τ : Type} [DecidableEq τ] {j_next : ι → Option ι} {j_id : ι → τ} {id : τ} {n : ℕ}
  {first : Option ι} {jobs : List ι}

/-- A search that ends stops at the first job of the thread. -/
theorem scan_eq_some {found : Option ι} (h : Segment j_next first jobs none)
    (hscan : scan j_next j_id id n first = some found) :
    found = jobs.find? fun jp => j_id jp = id := by
  induction jobs generalizing n first with
  | nil =>
    obtain rfl : first = none := h
    exact (Option.some.inj ((scan.eq_1 ..).symm.trans hscan)).symm
  | cons jp jobs ih =>
    obtain ⟨rfl, hrest⟩ := h
    rw [scan.eq_def] at hscan
    dsimp only at hscan
    rw [List.find?_cons]
    by_cases hid : j_id jp = id
    · rw [if_pos hid] at hscan
      rw [decide_eq_true hid]
      exact (Option.some.inj hscan).symm
    · rw [if_neg hid] at hscan
      rw [decide_eq_false hid]
      cases n with
      | zero => exact absurd hscan (Option.some_ne_none _).symm
      | succ n => exact ih hrest hscan

/-- A search that may pass over all jobs ends. -/
theorem scan_isSome (h : Segment j_next first jobs none) (hn : jobs.length ≤ n) :
    (scan j_next j_id id n first).isSome := by
  induction jobs generalizing n first with
  | nil =>
    obtain rfl : first = none := h
    rw [scan]
    rfl
  | cons jp jobs ih =>
    obtain ⟨rfl, hrest⟩ := h
    obtain ⟨n, rfl⟩ : ∃ m, n = m + 1 := Nat.exists_eq_succ_of_ne_zero (by
      rintro rfl
      exact absurd hn (Nat.not_succ_le_zero _))
    rw [scan.eq_def]
    dsimp only
    split_ifs with hid
    · rfl
    · exact ih hrest (Nat.le_of_succ_le_succ hn)

end Scan

/-! ## The threads -/

/-- Where a thread is. -/
inductive Pc (ι τ : Type)
  /-- In none of the functions. -/
  | idle
  /-- It has added a job and released the lock, and is about to broadcast. -/
  | broadcast (jp : ι)
  /-- In `job_find`, about to take the lock and to search. -/
  | find (id : τ)
  /-- In `job_find`, blocked in `pthread_cond_wait`. -/
  | wait (id : τ)
  /-- `job_find` has returned a job. -/
  | found (id : τ) (jp : ι)

/-- The thread may call one of the functions. -/
def Pc.isFree {ι τ : Type} : Pc ι τ → Bool
  | .idle | .found .. => true
  | _ => false

/-- The thread after a broadcast. -/
def Pc.wake {ι τ : Type} : Pc ι τ → Pc ι τ
  | .wait id => .find id
  | pc => pc

/-- The queue and the threads. -/
structure State (ι τ : Type) where
  queue : Queue ι τ
  pc : τ → Pc ι τ

/-- After `queue_init`, with any contents of the memory of the jobs. -/
def State.start {ι τ : Type} (j_next j_prev : ι → Option ι) (j_id : ι → τ) : State ι τ where
  queue := ⟨none, none, j_next, j_prev, j_id⟩
  pc := fun _ => .idle

/-- What happens next. -/
inductive Event (ι τ : Type)
  /-- The memory of a job gets any contents: it is freed and allocated, and its fields are set. -/
  | assign (jp : ι) (j_next j_prev : Option ι) (j_id : τ)
  /-- A thread inserts a job. -/
  | insert (t : τ) (jp : ι)
  /-- A thread appends a job. -/
  | append (t : τ) (jp : ι)
  /-- A thread removes a job. -/
  | remove (t : τ) (jp : ι)
  /-- A thread that has added a job broadcasts. -/
  | broadcast (t : τ)
  /-- A thread calls `job_find`. -/
  | call (t : τ) (id : τ)
  /-- A thread searches the queue, passing over at most `n` jobs, and returns or waits. -/
  | search (t : τ) (n : ℕ)
  /-- A thread wakes up from `pthread_cond_wait` for no reason. -/
  | spurious (t : τ)

section Machine

variable {ι τ : Type}

/-- The job is in the queue: the links lead from the head to it. -/
def State.Listed (s : State ι τ) (jp : ι) : Prop :=
  ∃ jobs, Segment s.queue.j_next s.queue.q_head jobs none ∧ jp ∈ jobs

/-- Only jobs that are not in the queue are added and written to, and only jobs that are in it are
removed. -/
def Proper (s : State ι τ) : Event ι τ → Prop
  | .assign jp .. | .insert _ jp | .append _ jp => ¬s.Listed jp
  | .remove _ jp => s.Listed jp
  | _ => True

/-- Whoever added a job of a waiting thread is about to broadcast. -/
def NoneLost (pc : τ → Pc ι τ) (j_id : ι → τ) (jobs : List ι) : Prop :=
  ∀ t id jp, pc t = .wait id → jp ∈ jobs → j_id jp = id → ∃ u, pc u = .broadcast jp

/-- A job is in the queue when the queue holds it. -/
theorem listed_iff {s : State ι τ} {jobs : List ι} {jp : ι} (h : s.queue.Holds jobs) :
    s.Listed jp ↔ jp ∈ jobs := by
  constructor
  · rintro ⟨jobs', hseg, hjp⟩
    rwa [hseg.unique h.forth] at hjp
  · exact fun hjp => ⟨jobs, h.forth, hjp⟩

/-- At the start the queue is empty. -/
theorem holds_start {j_next j_prev : ι → Option ι} {j_id : ι → τ} :
    (State.start j_next j_prev j_id).queue.Holds [] := Doubly.nil

/-- A free thread is not about to broadcast. -/
theorem Pc.ne_broadcast {pc : Pc ι τ} (h : pc.isFree = true) (jp : ι) : pc ≠ .broadcast jp := by
  rintro rfl
  exact Bool.false_ne_true h

section Deque

variable [DecidableEq ι]

/-- What becomes of the jobs that have been added and not yet removed. -/
def Event.deque (jobs : List ι) : Event ι τ → List ι
  | .insert _ jp => jp :: jobs
  | .append _ jp => jobs ++ [jp]
  | .remove _ jp => jobs.erase jp
  | _ => jobs

/-- The jobs that have been added and not yet removed, in the order of the deque. -/
def deque (es : List (Event ι τ)) : List ι := es.foldl Event.deque []

/-- The deque after one more event. -/
theorem deque_snoc (es : List (Event ι τ)) (e : Event ι τ) :
    deque (es ++ [e]) = e.deque (deque es) := List.foldl_concat ..

/-- The queue holds the deque, and no wake-up is lost. -/
structure Inv (es : List (Event ι τ)) (s : State ι τ) : Prop where
  holds : s.queue.Holds (deque es)
  noneLost : NoneLost s.pc s.queue.j_id (deque es)

/-- The invariant after one more event. -/
theorem inv_snoc {es : List (Event ι τ)} {e : Event ι τ} {s : State ι τ}
    (holds : s.queue.Holds (e.deque (deque es)))
    (noneLost : NoneLost s.pc s.queue.j_id (e.deque (deque es))) : Inv (es ++ [e]) s := by
  rw [← deque_snoc] at holds noneLost
  exact ⟨holds, noneLost⟩

end Deque

section Threads

variable [DecidableEq τ]

/-- The thread goes on at another place. -/
def State.goto (s : State ι τ) (t : τ) (pc : Pc ι τ) : State ι τ :=
  { s with pc := Function.update s.pc t pc }

/-- Where it is then. -/
theorem State.goto_pc (s : State ι τ) (t : τ) (pc : Pc ι τ) : (s.goto t pc).pc t = pc :=
  Function.update_self ..

variable {pc : τ → Pc ι τ} {j_id : ι → τ} {jobs jobs' : List ι} {t : τ} {p : Pc ι τ} {jp : ι}

/-- A thread that was not about to broadcast goes on, and waits only if there is no job for it. Jobs
may go away. -/
theorem NoneLost.update (h : NoneLost pc j_id jobs) (ht : ∀ jp, pc t ≠ .broadcast jp)
    (hp : ∀ id, p = .wait id → ∀ jp ∈ jobs, j_id jp ≠ id) (hsub : ∀ jp ∈ jobs', jp ∈ jobs) :
    NoneLost (Function.update pc t p) j_id jobs' := by
  intro u id jp hu hjp hid
  by_cases hut : u = t
  · rw [hut, Function.update_self] at hu
    exact absurd hid (hp id hu jp (hsub jp hjp))
  · rw [Function.update_of_ne hut] at hu
    obtain ⟨w, hw⟩ := h u id jp hu (hsub jp hjp) hid
    have hwt : w ≠ t := fun hwt => ht jp (by rw [← hwt, hw])
    exact ⟨w, (Function.update_of_ne hwt _ _).trans hw⟩

/-- A thread that adds a job is about to broadcast. -/
theorem NoneLost.add (h : NoneLost pc j_id jobs) (ht : (pc t).isFree = true)
    (hadd : ∀ x ∈ jobs', x = jp ∨ x ∈ jobs) :
    NoneLost (Function.update pc t (.broadcast jp)) j_id jobs' := by
  intro u id x hu hx hid
  rcases hadd x hx with rfl | hx
  · exact ⟨t, Function.update_self ..⟩
  · exact h.update (p := .broadcast jp) (Pc.ne_broadcast ht) (fun _ heq => by cases heq)
      (fun _ hmem => hmem) u id x hu hx hid

/-- Nobody waits after a broadcast. -/
theorem noneLost_wake : NoneLost (Function.update (fun u => (pc u).wake) t .idle) j_id jobs := by
  intro u id jp hu
  by_cases hut : u = t
  · rw [hut, Function.update_self] at hu
    cases hu
  · rw [Function.update_of_ne hut] at hu
    cases hpc : pc u <;> rw [hpc] at hu <;> cases hu

end Threads

/-! ## Steps -/

variable [DecidableEq ι] [DecidableEq τ]

/-- One step. -/
def step (s : State ι τ) : Event ι τ → Option (State ι τ)
  | .assign jp j_next j_prev j_id =>
    some { s with queue := { s.queue with
      j_next := Function.update s.queue.j_next jp j_next
      j_prev := Function.update s.queue.j_prev jp j_prev
      j_id := Function.update s.queue.j_id jp j_id } }
  | .insert t jp =>
    if (s.pc t).isFree then some (State.goto ⟨s.queue.job_insert jp, s.pc⟩ t (.broadcast jp))
    else none
  | .append t jp =>
    if (s.pc t).isFree then some (State.goto ⟨s.queue.job_append jp, s.pc⟩ t (.broadcast jp))
    else none
  | .remove t jp =>
    if (s.pc t).isFree then
      (s.queue.job_remove jp).map fun queue => State.goto ⟨queue, s.pc⟩ t .idle
    else none
  | .broadcast t =>
    match s.pc t with
    | .broadcast _ => some (State.goto ⟨s.queue, fun u => (s.pc u).wake⟩ t .idle)
    | _ => none
  | .call t id => if (s.pc t).isFree then some (s.goto t (.find id)) else none
  | .search t n =>
    match s.pc t with
    | .find id =>
      (scan s.queue.j_next s.queue.j_id id n s.queue.q_head).map fun
        | some jp => s.goto t (.found id jp)
        | none => s.goto t (.wait id)
    | _ => none
  | .spurious t =>
    match s.pc t with
    | .wait id => some (s.goto t (.find id))
    | _ => none

variable {es : List (Event ι τ)} {s s' : State ι τ} {e : Event ι τ} {t id : τ} {n : ℕ} {jp : ι}

/-- A search that ends has found the first job of the thread, or there is none and the thread
waits. -/
theorem search_eq_some (h : s.queue.Holds (deque es)) (hpc : s.pc t = .find id)
    (hstep : step s (.search t n) = some s') :
    (∃ jp, (deque es).find? (fun jp => s.queue.j_id jp = id) = some jp ∧
      s' = s.goto t (.found id jp)) ∨
    ((∀ jp ∈ deque es, s.queue.j_id jp ≠ id) ∧ s' = s.goto t (.wait id)) := by
  simp only [step, hpc] at hstep
  obtain ⟨found, hscan, rfl⟩ := Option.map_eq_some_iff.mp hstep
  have hfound := scan_eq_some h.forth hscan
  cases found with
  | some jp => exact Or.inl ⟨jp, hfound.symm, rfl⟩
  | none =>
    refine Or.inr ⟨fun jp hjp => ?_, rfl⟩
    exact of_decide_eq_false (Bool.eq_false_iff.mpr (List.find?_eq_none.mp hfound.symm jp hjp))

/-- A step keeps the queue a deque, and loses no wake-up. -/
theorem inv_step (h : Inv es s) (hproper : Proper s e) (hstep : step s e = some s') :
    Inv (es ++ [e]) s' := by
  obtain ⟨holds, noneLost⟩ := h
  cases e with
  | assign jp j_next j_prev j_id =>
    have hjp : jp ∉ deque es := fun hmem => hproper ((listed_iff holds).mpr hmem)
    obtain rfl := Option.some.inj hstep
    refine inv_snoc ?_ ?_
    · exact ⟨(segment_update hjp _).mpr holds.forth,
        (segment_update (mt List.mem_reverse.mp hjp) _).mpr holds.back⟩
    · -- A job of which the owner changes is not in the queue.
      intro u id x hu hx hid
      have hne : x ≠ jp := fun hxjp => hjp (hxjp ▸ hx)
      exact noneLost u id x hu hx ((Function.update_of_ne hne _ _).symm.trans hid)
  | insert t jp =>
    have hjp : jp ∉ deque es := fun hmem => hproper ((listed_iff holds).mpr hmem)
    simp only [step, Option.ite_none_right_eq_some] at hstep
    obtain ⟨hfree, hstep⟩ := hstep
    obtain rfl := Option.some.inj hstep
    refine inv_snoc ?_ ?_
    · exact holds.job_insert hjp
    · show NoneLost (Function.update s.pc t _) (s.queue.job_insert jp).j_id _
      rw [job_insert_j_id]
      exact noneLost.add hfree fun _ => List.mem_cons.mp
  | append t jp =>
    have hjp : jp ∉ deque es := fun hmem => hproper ((listed_iff holds).mpr hmem)
    simp only [step, Option.ite_none_right_eq_some] at hstep
    obtain ⟨hfree, hstep⟩ := hstep
    obtain rfl := Option.some.inj hstep
    refine inv_snoc ?_ ?_
    · exact holds.job_append hjp
    · show NoneLost (Function.update s.pc t _) (s.queue.job_append jp).j_id _
      rw [job_append_j_id]
      exact noneLost.add hfree fun _ hx =>
        (List.mem_append.mp hx).symm.imp_left List.mem_singleton.mp
  | remove t jp =>
    have hjp : jp ∈ deque es := (listed_iff holds).mp hproper
    simp only [step, Option.ite_none_right_eq_some] at hstep
    obtain ⟨hfree, hstep⟩ := hstep
    obtain ⟨queue, hremove, rfl⟩ := Option.map_eq_some_iff.mp hstep
    obtain ⟨queue', hremove', hholds, hid⟩ := holds.job_remove hjp
    obtain rfl := Option.some.inj (hremove.symm.trans hremove')
    refine inv_snoc ?_ ?_
    · exact hholds
    · show NoneLost (Function.update s.pc t _) queue.j_id _
      rw [hid]
      exact noneLost.update (Pc.ne_broadcast hfree) (fun _ heq => by cases heq)
        fun _ => List.mem_of_mem_erase
  | broadcast t =>
    cases hpc : s.pc t with
    | broadcast jp =>
      simp only [step, hpc] at hstep
      obtain rfl := Option.some.inj hstep
      refine inv_snoc ?_ ?_
      · exact holds
      · exact noneLost_wake
    | _ => simp [step, hpc] at hstep
  | call t id =>
    simp only [step, Option.ite_none_right_eq_some] at hstep
    obtain ⟨hfree, hstep⟩ := hstep
    obtain rfl := Option.some.inj hstep
    refine inv_snoc ?_ ?_
    · exact holds
    · exact noneLost.update (Pc.ne_broadcast hfree) (fun _ heq => by cases heq) fun _ hx => hx
  | search t n =>
    cases hpc : s.pc t with
    | find id =>
      have hbusy : ∀ jp, s.pc t ≠ .broadcast jp := fun jp heq => by
        rw [hpc] at heq
        cases heq
      -- The thread waits only if there is no job for it.
      rcases search_eq_some holds hpc hstep with ⟨jp, -, rfl⟩ | ⟨hnone, rfl⟩
      · refine inv_snoc ?_ ?_
        · exact holds
        · exact noneLost.update hbusy (fun _ heq => by cases heq) fun _ hx => hx
      · refine inv_snoc ?_ ?_
        · exact holds
        · refine noneLost.update hbusy (fun _ heq => ?_) fun _ hx => hx
          cases heq
          exact hnone
    | _ => simp [step, hpc] at hstep
  | spurious t =>
    cases hpc : s.pc t with
    | wait id =>
      simp only [step, hpc] at hstep
      obtain rfl := Option.some.inj hstep
      refine inv_snoc ?_ ?_
      · exact holds
      · refine noneLost.update (fun jp heq => ?_) (fun _ heq => by cases heq) fun _ hx => hx
        rw [hpc] at heq
        cases heq
    | _ => simp [step, hpc] at hstep

variable {j_next j_prev : ι → Option ι} {j_id : ι → τ}

/-- The invariant of every run. -/
theorem inv_of_run (h : Run step Proper (.start j_next j_prev j_id) es s) : Inv es s :=
  h.history (I := Inv) ⟨holds_start, fun _ _ _ _ hjp => absurd hjp List.not_mem_nil⟩
    fun _ _ _ _ => inv_step

/-- In every run the queue is a deque: from the head the links `j_next` lead over the jobs that have
been added and not yet removed, from the tail the links `j_prev` lead over them in reverse, and one
of the pointers is null exactly when the other one is. No job that is in the queue is removed
through a null pointer. `job_find` comes to an end of its search, and returns only a job that is in
the queue and belongs to the thread. When a thread waits and a job for it is in the queue, the
broadcast of the thread that added the job is still to come. -/
theorem jobQueue_spec (h : Run step Proper (.start j_next j_prev j_id) es s) :
    Segment s.queue.j_next s.queue.q_head (deque es) none ∧
    Segment s.queue.j_prev s.queue.q_tail (deque es).reverse none ∧
    (s.queue.q_head = none ↔ s.queue.q_tail = none) ∧
    (∀ jp ∈ deque es, s.queue.job_remove jp ≠ none) ∧
    (∀ t id, s.pc t = .find id → ∃ n, step s (.search t n) ≠ none) ∧
    (∀ t id n s' jp, s.pc t = .find id → step s (.search t n) = some s' →
      s'.pc t = .found id jp → jp ∈ deque es ∧ s.queue.j_id jp = id) ∧
    ∀ t id jp, s.pc t = .wait id → jp ∈ deque es → s.queue.j_id jp = id →
      ∃ u, s.pc u = .broadcast jp := by
  obtain ⟨holds, noneLost⟩ := inv_of_run h
  refine ⟨holds.forth, holds.back, holds.head_eq_none_iff, fun jp hjp => ?_, fun t id hpc => ?_,
    fun t id n s' jp hpc hstep hfound => ?_, noneLost⟩
  · obtain ⟨queue, hremove, -⟩ := holds.job_remove hjp
    rw [hremove]
    exact Option.some_ne_none queue
  · refine ⟨(deque es).length, ?_⟩
    have hscan : (scan s.queue.j_next s.queue.j_id id _ s.queue.q_head).isSome :=
      scan_isSome holds.forth (Nat.le_refl _)
    simp only [step, hpc]
    rw [ne_eq, Option.map_eq_none_iff]
    exact Option.isSome_iff_ne_none.mp hscan
  · rcases search_eq_some holds hpc hstep with ⟨jp', hfind, rfl⟩ | ⟨-, rfl⟩
    · rw [State.goto_pc] at hfound
      obtain ⟨-, rfl⟩ := Pc.found.inj hfound
      have hid := List.find?_some hfind
      exact ⟨List.mem_of_find?_eq_some hfind, of_decide_eq_true hid⟩
    · rw [State.goto_pc] at hfound
      cases hfound

end Machine

/-- A thread that waits, and a job for it that has just been inserted. -/
theorem jobQueue_spec_waiting :
    ∃ s : State ℕ ℕ, Run step Proper (.start (fun _ => none) (fun _ => none) fun _ => 1)
        [.call 1 1, .search 1 0, .insert 0 5] s ∧
      Segment s.queue.j_next s.queue.q_head [5] none ∧
      s.pc 1 = .wait 1 ∧ ∃ u, s.pc u = .broadcast 5 := by
  let s₀ : State ℕ ℕ := .start (fun _ => none) (fun _ => none) fun _ => 1
  let s₁ := s₀.goto 1 (.find 1)
  let s₂ := s₁.goto 1 (.wait 1)
  have hholds : s₂.queue.Holds [] := Doubly.nil
  have hempty : ¬s₂.Listed 5 := mt (listed_iff hholds).mp List.not_mem_nil
  have h₁ : Run step Proper s₀ [.call 1 1] s₁ := Run.single trivial rfl
  have h₂ : Run step Proper s₁ [.search 1 0] s₂ := Run.single trivial rfl
  have h₃ : Run step Proper s₂ [.insert 0 5] _ := Run.single hempty rfl
  have hrun := (h₁.append h₂).append h₃
  obtain ⟨hforth, -, -, -, -, -, hlost⟩ := jobQueue_spec hrun
  exact ⟨_, hrun, hforth, rfl, hlost 1 1 5 rfl List.mem_cons_self rfl⟩

end CxxPandora.Apue.JobQueue
