import CxxPandora.Lib.Worklist
import Mathlib.Data.Finset.Max
import Mathlib.Data.Fintype.Pi
import Mathlib.Tactic.DeriveFintype

/-!
# The combination lock

`openLock` and `openLock2` of `algorithms/labuladong/bfs/bfs_open_lock.cpp`: the fewest turns of one
wheel by one digit from `0000` to a target, around the dead ends. `openLock` is a breadth-first
search. `openLock2` is meant to search from both ends, but never fills the frontier that it hands
over: it puts the neighbours into the set that it iterates over, and ends after one round.
`openLock_spec` says what the first returns, `openLock2_spec` what the second does, and
`agrees_iff_unreachable` when they agree.
-/

namespace CxxPandora.Labuladong.OpenLock

open Lib

/-- A combination: a string of four digits. -/
structure Code where
  /-- The digits. -/
  digits : Fin 4 → Fin 10
deriving DecidableEq, Fintype

namespace Code

/-- The characters of a combination. -/
def str (s : Code) : List UInt8 := List.ofFn fun j => UInt8.ofNat (48 + s.digits j)

/-- `"0000"`. -/
def zero : Code := ⟨fun _ => 0⟩

/-- The number that the digits denote. -/
def value (s : Code) : ℕ :=
  1000 * s.digits 0 + 100 * s.digits 1 + 10 * s.digits 2 + s.digits 3

/-- A combination is determined by its number. -/
theorem value_injective : Function.Injective value := by
  rintro ⟨s⟩ ⟨t⟩ h
  simp only [value] at h
  congr
  funext j
  apply Fin.ext
  have hdigits : (s 0 : ℕ) = t 0 ∧ (s 1 : ℕ) = t 1 ∧ (s 2 : ℕ) = t 2 ∧ (s 3 : ℕ) = t 3 := by omega
  exact match j with
    | 0 => hdigits.1
    | 1 => hdigits.2.1
    | 2 => hdigits.2.2.1
    | 3 => hdigits.2.2.2

/-- The number of a combination has four digits. -/
theorem value_lt (s : Code) : s.value < 10000 := by
  unfold value
  omega

/-- The order of `std::string`: four digits compare as their numbers do. -/
instance : LinearOrder Code := LinearOrder.lift' value value_injective

end Code

/-- `plusOne`. -/
def plusOne (s : Code) (j : Fin 4) : Code :=
  if s.digits j = 9 then ⟨Function.update s.digits j 0⟩
  else ⟨Function.update s.digits j (s.digits j + 1)⟩

/-- `minusOne`. -/
def minusOne (s : Code) (j : Fin 4) : Code :=
  if s.digits j = 0 then ⟨Function.update s.digits j 9⟩
  else ⟨Function.update s.digits j (s.digits j - 1)⟩

/-- How a loop that may return from the function ends. -/
inductive Scan (σ : Type)
  | found
  | done (s : σ)

/-! ## `openLock` -/

/-- Strings are compared character by character, so membership of a dead end is decidable. -/
scoped instance lawfulBEq_str : LawfulBEq (List UInt8) := inferInstance

/-- The body of the inner loop after the comparison with the target: a dead end is skipped, and the
neighbours of another combination are visited. -/
def expand (deadends : List (List UInt8)) (w : Worklist Code) (cur : Code) : Worklist Code :=
  if cur.str ∈ deadends then w
  else (List.finRange 4).foldl (fun w j => (w.visit (plusOne cur j)).visit (minusOne cur j)) w

/-- The inner loop of `openLock`, `sz` times; `none` where it would take from an empty queue. -/
def openLockLevel (deadends : List (List UInt8)) (target : Code) :
    ℕ → Worklist Code → Option (Scan (Worklist Code))
  | 0, w => some (.done w)
  | sz + 1, w =>
    match w.queue with
    | [] => none
    | cur :: rest =>
      if target = cur then some .found
      else openLockLevel deadends target sz (expand deadends ⟨w.visited, rest⟩ cur)

/-- The neighbours that the search goes on to from a combination. -/
def nextCodes (deadends : List (List UInt8)) (cur : Code) : List Code :=
  if cur.str ∈ deadends then [] else
    (List.finRange 4).flatMap fun j => [plusOne cur j, minusOne cur j]

/-- Expanding a combination visits its neighbours. -/
theorem expand_eq (deadends : List (List UInt8)) (w : Worklist Code) (cur : Code) :
    expand deadends w cur = w.visitAll (nextCodes deadends cur) := by
  unfold expand nextCodes
  split_ifs with h
  · rfl
  · rw [Worklist.visitAll, List.foldl_flatMap]
    rfl

/-- A level that has something to do leaves less to do. -/
theorem weight_openLockLevel {deadends : List (List UInt8)} {target : Code} {sz : ℕ}
    {w w' : Worklist Code} (h : openLockLevel deadends target sz w = some (.done w')) :
    w'.weight ≤ w.weight ∧ (0 < sz → w'.weight < w.weight) := by
  induction sz generalizing w with
  | zero =>
    simp only [openLockLevel, Option.some.injEq, Scan.done.injEq] at h
    rw [h]
    exact ⟨le_rfl, fun h0 => absurd h0 (Nat.lt_irrefl 0)⟩
  | succ sz ih =>
    obtain ⟨visited, queue⟩ := w
    cases queue with
    | nil => exact absurd h (by simp [openLockLevel])
    | cons cur rest =>
      simp only [openLockLevel] at h
      split_ifs at h with htarget
      · exact absurd h (by simp)
      · have hle := (ih h).1
        have hlt := Worklist.weight_pop_lt visited cur rest (nextCodes deadends cur)
        rw [expand_eq] at hle
        exact ⟨(hle.trans_lt hlt).le, fun _ => hle.trans_lt hlt⟩

/-- The outer loop of `openLock`. -/
def openLockLoop (deadends : List (List UInt8)) (target : Code) (w : Worklist Code) (step : ℤ) :
    Option ℤ :=
  if hq : w.queue = [] then some (-1)
  else
    match hl : openLockLevel deadends target w.queue.length w with
    | none => none
    | some .found => some step
    | some (.done w') => openLockLoop deadends target w' (step + 1)
termination_by w.weight
decreasing_by exact (weight_openLockLevel hl).2 (List.length_pos_iff.mpr hq)

/-- `openLock`. -/
def openLock (deadends : List (List UInt8)) (target : Code) : Option ℤ :=
  openLockLoop deadends target ⟨{.zero}, [.zero]⟩ 0

/-! ## `openLock2` -/

/-- The sets of `openLock2` while it iterates over `q1`. -/
structure Frontier where
  /-- `visited`. -/
  visited : Finset Code
  /-- `q1`. -/
  q1 : Finset Code

/-- A neighbour that has not been visited goes into `visited` and into `q1`. -/
def Frontier.visit (s : Frontier) (next : Code) : Frontier :=
  if next ∈ s.visited then s else ⟨insert next s.visited, insert next s.q1⟩

/-- The body of the `for` loop after the comparison with the target. -/
def expand2 (deadends : List (List UInt8)) (s : Frontier) (cur : Code) : Frontier :=
  if cur.str ∈ deadends then s
  else (List.finRange 4).foldl (fun s j => (s.visit (plusOne cur j)).visit (minusOne cur j))
    ⟨insert cur s.visited, s.q1⟩

/-- The iterator's next element: the least one of the set, as it now is, above the current one. -/
def successor (q : Finset Code) (cur : Code) : Option Code :=
  if h : (q.filter (cur < ·)).Nonempty then some ((q.filter (cur < ·)).min' h) else none

/-- The next element is in the set, and above the current one. -/
theorem mem_of_successor {q : Finset Code} {cur next : Code} (h : successor q cur = some next) :
    next ∈ q ∧ cur < next := by
  unfold successor at h
  split_ifs at h with hne
  rw [← Option.some.inj h]
  exact Finset.mem_filter.mp (Finset.min'_mem _ hne)

/-- Fewer combinations are left above the next element. -/
theorem value_sub_lt {q : Finset Code} {cur next : Code} (h : successor q cur = some next) :
    10000 - next.value < 10000 - cur.value := by
  have hlt : cur.value < next.value := (mem_of_successor h).2
  have hbound := next.value_lt
  omega

/-- The `for` loop of `openLock2`, from an element on. Elements that are inserted above the current
one are iterated over in their turn. -/
def openLock2Scan (deadends : List (List UInt8)) (target cur : Code) (s : Frontier) :
    Scan Frontier :=
  if target = cur then .found
  else
    match _hs : successor (expand2 deadends s cur).q1 cur with
    | none => .done (expand2 deadends s cur)
    | some next => openLock2Scan deadends target next (expand2 deadends s cur)
termination_by 10000 - cur.value
decreasing_by exact value_sub_lt _hs

/-- The `while` loop of `openLock2`. Nothing is put into `temp`. -/
def openLock2Loop (deadends : List (List UInt8)) (target : Code) (q1 q2 visited : Finset Code)
    (step : ℤ) : ℤ :=
  if h : q1.Nonempty ∧ q2.Nonempty then
    let temp : Finset Code := ∅
    match openLock2Scan deadends target (q1.min' h.1) ⟨visited, q1⟩ with
    | .found => step
    | .done s => openLock2Loop deadends target q2 temp s.visited (step + 1)
  else -1
termination_by q2.card
decreasing_by
  rw [Finset.card_empty]
  exact h.2.card_pos

/-- `openLock2`. -/
def openLock2 (deadends : List (List UInt8)) (target : Code) : ℤ :=
  openLock2Loop deadends target {.zero} {target} ∅ 0

/-- The two searches return the same number. -/
def Agrees (deadends : List (List UInt8)) (target : Code) : Prop :=
  openLock deadends target = some (openLock2 deadends target)

/-! ## What the searches return -/

/-- The target can be reached from `0000`, a turn at a time, without going on from a dead end. -/
def Opens (deadends : List (List UInt8)) (target : Code) : Prop :=
  Reaches (nextCodes deadends) .zero target

/-- A level of `openLock`: it finds the target only if it can be reached, and otherwise goes on with
the invariant. -/
theorem openLockLevel_spec {deadends : List (List UInt8)} {target : Code} {sz : ℕ}
    {w : Worklist Code} (hsz : sz ≤ w.queue.length)
    (hw : w.Inv (nextCodes deadends) .zero target) :
    openLockLevel deadends target sz w = some .found ∧ Opens deadends target ∨
      ∃ w', openLockLevel deadends target sz w = some (.done w') ∧
        w'.Inv (nextCodes deadends) .zero target := by
  induction sz generalizing w with
  | zero => exact Or.inr ⟨w, rfl, hw⟩
  | succ sz ih =>
    obtain ⟨visited, queue⟩ := w
    cases queue with
    | nil => exact absurd hsz (by simp)
    | cons cur rest =>
      simp only [openLockLevel]
      split_ifs with htarget
      · refine Or.inl ⟨rfl, ?_⟩
        rw [htarget]
        exact hw.reaches List.mem_cons_self
      · rw [expand_eq]
        refine ih ?_ (hw.pop (Ne.symm htarget))
        have hle := Worklist.length_queue_visitAll_le ⟨visited, rest⟩ (nextCodes deadends cur)
        rw [List.length_cons] at hsz
        exact (Nat.le_of_succ_le_succ hsz).trans hle

/-- The outer loop of `openLock` ends at a level that finds the target. -/
theorem openLockLoop_found {deadends : List (List UInt8)} {target : Code} {w : Worklist Code}
    (hq : w.queue ≠ []) (h : openLockLevel deadends target w.queue.length w = some .found)
    (step : ℤ) : openLockLoop deadends target w step = some step := by
  rw [openLockLoop, dif_neg hq]
  split
  · rename_i hl
    rw [hl] at h
    exact absurd h.symm (Option.some_ne_none _)
  · rfl
  · rename_i hl
    rw [hl] at h
    exact absurd (Option.some.inj h) nofun

/-- The outer loop of `openLock` goes on after a level that does not. -/
theorem openLockLoop_done {deadends : List (List UInt8)} {target : Code} {w w' : Worklist Code}
    (hq : w.queue ≠ []) (h : openLockLevel deadends target w.queue.length w = some (.done w'))
    (step : ℤ) :
    openLockLoop deadends target w step = openLockLoop deadends target w' (step + 1) := by
  rw [openLockLoop, dif_neg hq]
  split
  · rename_i hl
    rw [hl] at h
    exact absurd h.symm (Option.some_ne_none _)
  · rename_i hl
    rw [hl] at h
    exact absurd (Option.some.inj h) nofun
  · rename_i hl
    rw [hl] at h
    obtain rfl := Scan.done.inj (Option.some.inj h)
    rfl

/-- The outer loop of `openLock` returns -1 if the target cannot be reached, and otherwise at least
the number of steps that it has made. -/
theorem openLockLoop_spec {deadends : List (List UInt8)} {target : Code} {w : Worklist Code}
    (hw : w.Inv (nextCodes deadends) .zero target) (step : ℤ) :
    openLockLoop deadends target w step = some (-1) ∧ ¬ Opens deadends target ∨
      ∃ n, openLockLoop deadends target w step = some n ∧ step ≤ n ∧ Opens deadends target := by
  induction hn : w.weight using Nat.strong_induction_on generalizing w step with
  | _ n ih =>
    by_cases hq : w.queue = []
    · refine Or.inl ⟨?_, hw.not_reaches hq⟩
      rw [openLockLoop, dif_pos hq]
    · rcases openLockLevel_spec le_rfl hw with ⟨hfound, hopens⟩ | ⟨w', hdone, hw'⟩
      · rw [openLockLoop_found hq hfound]
        exact Or.inr ⟨step, rfl, le_rfl, hopens⟩
      · have hlt := (weight_openLockLevel hdone).2 (List.length_pos_iff.mpr hq)
        rw [openLockLoop_done hq hdone]
        rcases ih _ (hn ▸ hlt) hw' (step + 1) rfl with hnone | ⟨n, hloop, hle, hopens⟩
        · exact Or.inl hnone
        · exact Or.inr ⟨n, hloop, by omega, hopens⟩

/-- `openLock` returns zero for `0000`, -1 if the target cannot be reached, and otherwise one or
more. -/
theorem openLock_spec (deadends : List (List UInt8)) (target : Code) :
    (target = .zero → openLock deadends target = some 0) ∧
      (¬ Opens deadends target → openLock deadends target = some (-1)) ∧
      (target ≠ .zero → Opens deadends target →
        ∃ n, openLock deadends target = some n ∧ 1 ≤ n) := by
  have hinv := Worklist.Inv.init (nextCodes deadends) .zero target
  have hq : (⟨{.zero}, [.zero]⟩ : Worklist Code).queue ≠ [] := List.cons_ne_nil _ _
  refine ⟨fun hzero => ?_, fun hnot => ?_, fun hne hopens => ?_⟩
  · refine openLockLoop_found hq ?_ 0
    rw [hzero]
    rfl
  · rcases openLockLoop_spec hinv 0 with ⟨hnone, -⟩ | ⟨n, -, -, hopens⟩
    · exact hnone
    · exact absurd hopens hnot
  · -- The first level holds `0000` alone, so that it does not find the target.
    rcases openLockLevel_spec le_rfl hinv with ⟨hfound, -⟩ | ⟨w', hdone, hw'⟩
    · simp only [List.length_singleton, openLockLevel, if_neg hne] at hfound
      exact absurd hfound (by simp)
    · rw [openLock, openLockLoop_done hq hdone]
      rcases openLockLoop_spec hw' (0 + 1) with ⟨-, hnot⟩ | ⟨n, hn, hle, -⟩
      · exact absurd hopens hnot
      · exact ⟨n, hn, by omega⟩

/-- What has been put into the frontier. -/
theorem mem_visit {s : Frontier} {next c : Code} (h : c ∈ (s.visit next).q1) :
    c ∈ s.q1 ∨ c = next := by
  unfold Frontier.visit at h
  split_ifs at h with hmem
  · exact Or.inl h
  · exact (Finset.mem_insert.mp h).symm

/-- What the turns of some wheels have put into the frontier. -/
theorem mem_foldl_visit {cur c : Code} {js : List (Fin 4)} {s : Frontier}
    (h : c ∈ (js.foldl (fun s j => (s.visit (plusOne cur j)).visit (minusOne cur j)) s).q1) :
    c ∈ s.q1 ∨ c ∈ js.flatMap fun j => [plusOne cur j, minusOne cur j] := by
  induction js generalizing s with
  | nil => exact Or.inl h
  | cons j js ih =>
    rw [List.flatMap_cons, List.mem_append]
    rcases ih h with hs | hs
    · rcases mem_visit hs with hs | rfl
      · rcases mem_visit hs with hs | rfl
        · exact Or.inl hs
        · exact Or.inr (Or.inl (by simp))
      · exact Or.inr (Or.inl (by simp))
    · exact Or.inr (Or.inr hs)

/-- Expanding a combination puts only its neighbours into the frontier. -/
theorem mem_expand2 {deadends : List (List UInt8)} {s : Frontier} {cur c : Code}
    (h : c ∈ (expand2 deadends s cur).q1) : c ∈ s.q1 ∨ c ∈ nextCodes deadends cur := by
  by_cases hdead : cur.str ∈ deadends
  · rw [expand2, if_pos hdead] at h
    exact Or.inl h
  · rw [expand2, if_neg hdead] at h
    rw [nextCodes, if_neg hdead]
    -- The four wheels, as a list that is not evaluated.
    generalize List.finRange 4 = js at h ⊢
    have hmem := mem_foldl_visit h
    exact hmem

/-- The iteration of `openLock2` finds the target only if it can be reached. -/
theorem opens_of_scan {deadends : List (List UInt8)} {target cur : Code} {s : Frontier}
    (hs : ∀ c ∈ s.q1, Opens deadends c) (hcur : cur ∈ s.q1)
    (h : openLock2Scan deadends target cur s = .found) : Opens deadends target := by
  induction cur, s using openLock2Scan.induct deadends target with
  | case1 s => exact hs _ hcur
  | case2 cur s htarget hnone =>
    rw [openLock2Scan, if_neg htarget] at h
    split at h
    · exact absurd h (by simp)
    · rename_i next hnext
      rw [hnone] at hnext
      exact absurd hnext (by simp)
  | case3 cur s htarget next hnext ih =>
    rw [openLock2Scan, if_neg htarget] at h
    split at h
    · exact absurd h (by simp)
    · rename_i next' hnext'
      obtain rfl : next' = next := Option.some.inj (hnext'.symm.trans hnext)
      refine ih (fun c hc => ?_) (mem_of_successor hnext).1 h
      rcases mem_expand2 hc with hc | hc
      · exact hs c hc
      · exact (hs cur hcur).tail hc

/-- `openLock2` returns after its first round: zero if the iteration finds the target, and -1
otherwise. -/
theorem openLock2_eq (deadends : List (List UInt8)) (target : Code) :
    openLock2 deadends target =
      match openLock2Scan deadends target .zero ⟨∅, {.zero}⟩ with
      | .found => 0
      | .done _ => -1 := by
  have hfirst : ({.zero} : Finset Code).Nonempty ∧ ({target} : Finset Code).Nonempty :=
    ⟨Finset.singleton_nonempty _, Finset.singleton_nonempty _⟩
  have hempty : ∀ (q1 visited : Finset Code) (step : ℤ),
      openLock2Loop deadends target q1 ∅ visited step = -1 := by
    intro q1 visited step
    rw [openLock2Loop, dif_neg (fun h => Finset.not_nonempty_empty h.2)]
  rw [openLock2, openLock2Loop, dif_pos hfirst, Finset.min'_singleton]
  split
  · rfl
  · exact hempty _ _ _

/-- What `openLock2` returns: zero for `0000`, -1 if the target cannot be reached, and never one or
more. -/
theorem openLock2_spec (deadends : List (List UInt8)) (target : Code) :
    (target = .zero → openLock2 deadends target = 0) ∧
      (¬ Opens deadends target → openLock2 deadends target = -1) ∧
      openLock2 deadends target ≤ 0 := by
  rw [openLock2_eq]
  refine ⟨fun hzero => ?_, fun hnot => ?_, ?_⟩
  · rw [openLock2Scan, if_pos hzero]
  · split
    · rename_i hfound
      refine absurd (opens_of_scan (fun c hc => ?_) (Finset.mem_singleton_self _) hfound) hnot
      rw [Finset.mem_singleton.mp hc]
      exact Relation.ReflTransGen.refl
    · rfl
  · split
    · exact le_rfl
    · decide

/-! ## When they agree -/

/-- The two searches agree exactly for the target `0000` and for the targets that cannot be
reached. -/
theorem agrees_iff_unreachable (deadends : List (List UInt8)) (target : Code) :
    Agrees deadends target ↔ target = .zero ∨ ¬ Opens deadends target := by
  obtain ⟨hzero, hnot, hopens⟩ := openLock_spec deadends target
  obtain ⟨hzero2, hnot2, hle⟩ := openLock2_spec deadends target
  unfold Agrees
  constructor
  · intro h
    by_contra hcon
    rw [not_or, not_not] at hcon
    obtain ⟨n, hn, hpos⟩ := hopens hcon.1 hcon.2
    rw [hn, Option.some.injEq] at h
    omega
  · rintro (h | h)
    · rw [hzero h, hzero2 h]
    · rw [hnot h, hnot2 h]

/-- Without dead ends, the target `0001` is one turn away, and `openLock2` does not return one. -/
theorem not_agrees_one : ¬ ∀ (deadends : List (List UInt8)) (target : Code),
    target.str ∉ deadends → Agrees deadends target := by
  intro hall
  have hagrees := hall [] (plusOne .zero 3) List.not_mem_nil
  have hopens : Opens [] (plusOne .zero 3) := Relation.ReflTransGen.single (by decide)
  obtain ⟨-, -, hone⟩ := openLock_spec [] (plusOne .zero 3)
  obtain ⟨n, hn, hpos⟩ := hone (by decide) hopens
  obtain ⟨-, -, hle⟩ := openLock2_spec [] (plusOne .zero 3)
  rw [Agrees, hn, Option.some.injEq] at hagrees
  omega

end CxxPandora.Labuladong.OpenLock
