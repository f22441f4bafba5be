import Mathlib.Data.Fintype.Card
import Mathlib.Data.Finset.Card
import Mathlib.Order.Bounds.Defs
import Mathlib.Logic.Relation

/-!
# Searching with a worklist

A search keeps the elements it has seen (`visited`) and, of those, the ones it has not yet looked at
(`queue`). Looking at one takes it off the queue and visits its successors. `Worklist.Inv` is what
holds in between: everything seen can be reached, and what has been looked at is not the goal and
has only visited successors. So a search that has found nothing when its queue is empty has shown
that the goal cannot be reached (`Worklist.Inv.not_reaches`). A search that takes the queue a level
at a time keeps `Worklist.LevelInv` as well, and finds the goal at its least distance
(`Worklist.LevelInv.isLeast`). Inside a finite set, `Worklist.weightIn` bounds what is left to do.
-/

namespace CxxPandora.Lib

variable {α : Type*}

/-- Some successors lead from the first element to the second. -/
def Reaches (next : α → List α) : α → α → Prop := Relation.ReflTransGen fun a b => b ∈ next a

/-- Exactly so many successors, one after the other, lead from the start to the element. -/
inductive Steps (next : α → List α) (start : α) : ℕ → α → Prop
  | start : Steps next start 0 start
  | step {k : ℕ} {a b : α} : Steps next start k a → b ∈ next a → Steps next start (k + 1) b

/-- The state of a search. -/
structure Worklist (α : Type*) where
  /-- The elements seen. -/
  visited : Finset α
  /-- The ones not yet looked at, the oldest first. -/
  queue : List α

namespace Worklist

/-! ## The invariant of a search -/

/-- What holds between two steps of a search from a start for a goal. -/
structure Inv (next : α → List α) (start goal : α) (w : Worklist α) : Prop where
  /-- The start has been seen. -/
  started : start ∈ w.visited
  /-- What is on the queue has been seen. -/
  queue : ∀ a ∈ w.queue, a ∈ w.visited
  /-- What has been seen can be reached. -/
  sound : ∀ a ∈ w.visited, Reaches next start a
  /-- What has been looked at is not the goal, and its successors have been seen. -/
  closed : ∀ a ∈ w.visited, a ∈ w.queue ∨ a ≠ goal ∧ ∀ b ∈ next a, b ∈ w.visited

variable {next : α → List α} {start goal : α}

/-- The invariant holds when only the start is on the queue. -/
theorem Inv.init (next : α → List α) (start goal : α) :
    Inv next start goal ⟨{start}, [start]⟩ where
  started := Finset.mem_singleton_self start
  queue a ha := Finset.mem_singleton.mpr (List.mem_singleton.mp ha)
  sound a ha := by
    rw [Finset.mem_singleton.mp ha]
    exact Relation.ReflTransGen.refl
  closed a ha := Or.inl (List.mem_singleton.mpr (Finset.mem_singleton.mp ha))

/-- What is on the queue can be reached. -/
theorem Inv.reaches {w : Worklist α} (h : Inv next start goal w) {a : α} (ha : a ∈ w.queue) :
    Reaches next start a := h.sound a (h.queue a ha)

/-- When nothing is left on the queue, the goal cannot be reached. -/
theorem Inv.not_reaches {w : Worklist α} (h : Inv next start goal w) (hempty : w.queue = []) :
    ¬ Reaches next start goal := by
  have hclosed : ∀ a ∈ w.visited, a ≠ goal ∧ ∀ b ∈ next a, b ∈ w.visited := fun a ha =>
    (h.closed a ha).resolve_left (by rw [hempty]; exact List.not_mem_nil)
  have hvisited : ∀ a, Reaches next start a → a ∈ w.visited := by
    intro a ha
    induction ha with
    | refl => exact h.started
    | tail _ hstep ih => exact (hclosed _ ih).2 _ hstep
  exact fun hgoal => (hclosed goal (hvisited goal hgoal)).1 rfl

/-! ## A level at a time -/

/-- What holds of a search that takes its queue a level at a time, while the first `n` elements of
the queue are what is left of the level at distance `d`. -/
structure LevelInv (next : α → List α) (start goal : α) (d n : ℕ) (w : Worklist α) : Prop where
  /-- The level is on the queue. -/
  le : n ≤ w.queue.length
  /-- What is left of the level is at its distance. -/
  front : ∀ a ∈ w.queue.take n, Steps next start d a
  /-- The rest of the queue is one step further. -/
  back : ∀ a ∈ w.queue.drop n, Steps next start (d + 1) a
  /-- Everything as near as the level has been seen. -/
  seen : ∀ k ≤ d, ∀ a, Steps next start k a → a ∈ w.visited
  /-- What has been seen is as near as the level, or on the rest of the queue. -/
  sound : ∀ a ∈ w.visited, (∃ k ≤ d, Steps next start k a) ∨ a ∈ w.queue.drop n
  /-- What is as near as the level and has been looked at is not the goal, and its successors have
  been seen. -/
  closed : ∀ k ≤ d, ∀ a, Steps next start k a →
    a ∈ w.queue.take n ∨ a ≠ goal ∧ ∀ b ∈ next a, b ∈ w.visited
  /-- The goal is no nearer than the level. -/
  far : ∀ k < d, ¬ Steps next start k goal

/-- The first level holds the start alone. -/
theorem LevelInv.init (next : α → List α) (start goal : α) :
    LevelInv next start goal 0 1 ⟨{start}, [start]⟩ where
  le := le_rfl
  front a ha := by
    rw [List.mem_singleton.mp ha]
    exact .start
  back a ha := absurd ha List.not_mem_nil
  seen k hk a ha := by
    obtain rfl := Nat.le_zero.mp hk
    cases ha
    exact Finset.mem_singleton_self start
  sound a ha := by
    rw [Finset.mem_singleton.mp ha]
    exact Or.inl ⟨0, le_rfl, .start⟩
  closed k hk a ha := by
    obtain rfl := Nat.le_zero.mp hk
    cases ha
    exact Or.inl List.mem_cons_self
  far k hk := absurd hk (Nat.not_lt_zero k)

/-- When a level has been looked at, the whole queue is the next one. -/
theorem LevelInv.next_level {d : ℕ} {w : Worklist α} (h : LevelInv next start goal d 0 w) :
    LevelInv next start goal (d + 1) w.queue.length w := by
  have hclosed : ∀ k ≤ d, ∀ a, Steps next start k a → a ≠ goal ∧ ∀ b ∈ next a, b ∈ w.visited :=
    fun k hk a ha => (h.closed k hk a ha).resolve_left List.not_mem_nil
  have hseen : ∀ k ≤ d + 1, ∀ a, Steps next start k a → a ∈ w.visited := by
    intro k hk a ha
    cases ha with
    | start => exact h.seen 0 (Nat.zero_le d) start .start
    | step ha hb => exact (hclosed _ (Nat.le_of_succ_le_succ hk) _ ha).2 _ hb
  refine ⟨le_rfl, ?_, ?_, hseen, ?_, ?_, ?_⟩
  · rw [List.take_length]
    exact h.back
  · rw [List.drop_length]
    exact fun a ha => absurd ha List.not_mem_nil
  · intro a ha
    rcases h.sound a ha with ⟨k, hk, hsteps⟩ | hqueue
    · exact Or.inl ⟨k, Nat.le_succ_of_le hk, hsteps⟩
    · exact Or.inl ⟨d + 1, le_rfl, h.back a hqueue⟩
  · rw [List.take_length]
    intro k hk a ha
    rcases h.sound a (hseen k hk a ha) with ⟨k', hk', hsteps⟩ | hqueue
    · exact Or.inr (hclosed k' hk' a hsteps)
    · exact Or.inl hqueue
  · exact fun k hk hgoal => (hclosed k (Nat.le_of_lt_succ hk) goal hgoal).1 rfl

/-- A goal found on a level is at its least distance. -/
theorem LevelInv.isLeast {d n : ℕ} {visited : Finset α} {queue : List α}
    (h : LevelInv next start goal d (n + 1) ⟨visited, goal :: queue⟩) :
    IsLeast {k | Steps next start k goal} d := by
  refine ⟨h.front goal List.mem_cons_self, fun k hk => ?_⟩
  by_contra hlt
  exact h.far k (Nat.lt_of_not_le hlt) hk

/-- When a level is empty, the goal cannot be reached. -/
theorem LevelInv.not_steps {d : ℕ} {w : Worklist α} (h : LevelInv next start goal d 0 w)
    (hempty : w.queue = []) (k : ℕ) : ¬ Steps next start k goal := by
  have hclosed : ∀ k ≤ d, ∀ a, Steps next start k a → a ≠ goal ∧ ∀ b ∈ next a, b ∈ w.visited :=
    fun k hk a ha => (h.closed k hk a ha).resolve_left List.not_mem_nil
  have hnear : ∀ k a, Steps next start k a → ∃ k' ≤ d, Steps next start k' a := by
    intro k a ha
    induction ha with
    | start => exact ⟨0, Nat.zero_le d, .start⟩
    | step _ hb ih =>
      obtain ⟨k', hk', hsteps⟩ := ih
      refine (h.sound _ ((hclosed k' hk' _ hsteps).2 _ hb)).resolve_right ?_
      rw [hempty]
      exact List.not_mem_nil
  intro hgoal
  obtain ⟨k', hk', hsteps⟩ := hnear k goal hgoal
  exact (hclosed k' hk' goal hsteps).1 rfl

/-! ## What is left to do -/

/-- Twice the elements of a set that have not been seen, and those on the queue. -/
def weightIn (U : Finset α) (w : Worklist α) : ℕ := 2 * (U.card - w.visited.card) + w.queue.length

/-- What is left to do when only the start is on the queue. -/
theorem weightIn_init_le {U : Finset α} {n : ℕ} (a : α) (h : U.card ≤ n) :
    weightIn U ⟨{a}, [a]⟩ ≤ 2 * n + 1 := by
  simp only [weightIn, Finset.card_singleton, List.length_singleton]
  omega

/-- Twice the elements not seen, and those on the queue. -/
def weight [Fintype α] (w : Worklist α) : ℕ :=
  2 * (Fintype.card α - w.visited.card) + w.queue.length

/-- It is what is left to do inside the set of all elements. -/
theorem weight_eq [Fintype α] (w : Worklist α) : w.weight = w.weightIn Finset.univ := rfl

/-! ## Visiting -/

variable [DecidableEq α]

/-- An element that has not been seen joins the queue. -/
def visit (w : Worklist α) (a : α) : Worklist α :=
  if a ∈ w.visited then w else ⟨insert a w.visited, w.queue ++ [a]⟩

/-- Visiting some elements in order. -/
def visitAll (w : Worklist α) (as : List α) : Worklist α := as.foldl visit w

/-- What has been seen after a visit. -/
theorem mem_visited_visit {w : Worklist α} {a b : α} :
    b ∈ (w.visit a).visited ↔ b ∈ w.visited ∨ b = a := by
  unfold visit
  split_ifs with h
  · exact ⟨Or.inl, fun hb => hb.elim id fun hb => hb ▸ h⟩
  · rw [Finset.mem_insert, or_comm]

/-- What is on the queue after a visit. -/
theorem mem_queue_visit {w : Worklist α} {a b : α} :
    b ∈ (w.visit a).queue ↔ b ∈ w.queue ∨ b = a ∧ a ∉ w.visited := by
  unfold visit
  split_ifs with h
  · exact ⟨Or.inl, fun hb => hb.elim id fun hb => absurd h hb.2⟩
  · rw [List.mem_append, List.mem_singleton]
    exact or_congr_right (and_iff_left h).symm

/-- What has been seen after some visits. -/
theorem mem_visited_visitAll {w : Worklist α} {as : List α} {b : α} :
    b ∈ (w.visitAll as).visited ↔ b ∈ w.visited ∨ b ∈ as := by
  induction as generalizing w with
  | nil => simp [visitAll]
  | cons a as ih =>
    have hstep : w.visitAll (a :: as) = (w.visit a).visitAll as := rfl
    rw [hstep, ih, mem_visited_visit, List.mem_cons, or_assoc]

/-- What is on the queue after some visits: what was, and what has been seen since. -/
theorem mem_queue_visitAll {w : Worklist α} {as : List α} {b : α} :
    b ∈ (w.visitAll as).queue ↔ b ∈ w.queue ∨ b ∈ (w.visitAll as).visited ∧ b ∉ w.visited := by
  induction as generalizing w with
  | nil => simp [visitAll]
  | cons a as ih =>
    have hstep : w.visitAll (a :: as) = (w.visit a).visitAll as := rfl
    rw [hstep, ih, mem_queue_visit, mem_visited_visit]
    have hseen : b = a → b ∈ ((w.visit a).visitAll as).visited := fun hb =>
      mem_visited_visitAll.mpr (Or.inl (mem_visited_visit.mpr (Or.inr hb)))
    constructor
    · rintro ((hb | ⟨rfl, hb⟩) | ⟨hb, hnot⟩)
      · exact Or.inl hb
      · exact Or.inr ⟨hseen rfl, hb⟩
      · exact Or.inr ⟨hb, fun h => hnot (Or.inl h)⟩
    · rintro (hb | ⟨hb, hnot⟩)
      · exact Or.inl (Or.inl hb)
      · rcases eq_or_ne b a with rfl | hne
        · exact Or.inl (Or.inr ⟨rfl, hnot⟩)
        · exact Or.inr ⟨hb, not_or.mpr ⟨hnot, hne⟩⟩

/-- Visits do not shorten the queue. -/
theorem length_queue_visitAll_le (w : Worklist α) (as : List α) :
    w.queue.length ≤ (w.visitAll as).queue.length := by
  induction as generalizing w with
  | nil => exact le_rfl
  | cons a as ih =>
    have hvisit : w.queue.length ≤ (w.visit a).queue.length := by
      unfold visit
      split_ifs with h
      · exact le_rfl
      · simp
    exact hvisit.trans (ih (w.visit a))

/-- Looking at the first element of the queue, which is not the goal, keeps the invariant. -/
theorem Inv.pop {visited : Finset α} {a : α} {queue : List α}
    (h : Inv next start goal ⟨visited, a :: queue⟩) (ha : a ≠ goal) :
    Inv next start goal (visitAll ⟨visited, queue⟩ (next a)) where
  started := mem_visited_visitAll.mpr (Or.inl h.started)
  queue b hb := by
    rcases mem_queue_visitAll.mp hb with hb | hb
    · exact mem_visited_visitAll.mpr (Or.inl (h.queue b (List.mem_cons_of_mem _ hb)))
    · exact hb.1
  sound b hb := by
    rcases mem_visited_visitAll.mp hb with hb | hb
    · exact h.sound b hb
    · exact (h.sound a (h.queue a List.mem_cons_self)).tail hb
  closed b hb := by
    by_cases hold : b ∈ visited
    · rcases h.closed b hold with hqueue | ⟨hne, hnext⟩
      · rcases List.mem_cons.mp hqueue with rfl | hqueue
        · -- The element that was looked at.
          exact Or.inr ⟨ha, fun c hc => mem_visited_visitAll.mpr (Or.inr hc)⟩
        · exact Or.inl (mem_queue_visitAll.mpr (Or.inl hqueue))
      · exact Or.inr ⟨hne, fun c hc => mem_visited_visitAll.mpr (Or.inl (hnext c hc))⟩
    · exact Or.inl (mem_queue_visitAll.mpr (Or.inr ⟨hb, hold⟩))

/-- The queue after some visits: the new elements are at its end. -/
theorem queue_visitAll (w : Worklist α) (as : List α) :
    ∃ new, (w.visitAll as).queue = w.queue ++ new ∧ ∀ b, b ∈ new ↔ b ∈ as ∧ b ∉ w.visited := by
  induction as generalizing w with
  | nil => exact ⟨[], by simp [visitAll], by simp⟩
  | cons a as ih =>
    have hstep : w.visitAll (a :: as) = (w.visit a).visitAll as := rfl
    obtain ⟨new, hqueue, hnew⟩ := ih (w.visit a)
    rw [hstep, hqueue]
    by_cases ha : a ∈ w.visited
    · rw [visit, if_pos ha] at hnew ⊢
      refine ⟨new, rfl, fun b => ?_⟩
      rw [hnew, List.mem_cons]
      constructor
      · exact fun hb => ⟨Or.inr hb.1, hb.2⟩
      · rintro ⟨rfl | hb, hnot⟩
        · exact absurd ha hnot
        · exact ⟨hb, hnot⟩
    · rw [visit, if_neg ha] at hnew ⊢
      refine ⟨a :: new, by simp, fun b => ?_⟩
      rw [List.mem_cons, hnew, List.mem_cons, Finset.mem_insert, not_or]
      constructor
      · rintro (rfl | ⟨hb, -, hnot⟩)
        · exact ⟨Or.inl rfl, ha⟩
        · exact ⟨Or.inr hb, hnot⟩
      · rintro ⟨rfl | hb, hnot⟩
        · exact Or.inl rfl
        · rcases eq_or_ne b a with rfl | hne
          · exact Or.inl rfl
          · exact Or.inr ⟨hb, hne, hnot⟩

/-- Looking at the first element of a level, which is not the goal, keeps the invariant. -/
theorem LevelInv.pop {d n : ℕ} {visited : Finset α} {a : α} {queue : List α}
    (h : LevelInv next start goal d (n + 1) ⟨visited, a :: queue⟩) (ha : a ≠ goal) :
    LevelInv next start goal d n (visitAll ⟨visited, queue⟩ (next a)) := by
  have hn : n ≤ queue.length := Nat.le_of_succ_le_succ h.le
  have hcur : Steps next start d a := h.front a List.mem_cons_self
  obtain ⟨new, hqueue, hnew⟩ := queue_visitAll ⟨visited, queue⟩ (next a)
  have htake : (queue ++ new).take n = queue.take n := List.take_append_of_le_length hn
  have hdrop : (queue ++ new).drop n = queue.drop n ++ new := List.drop_append_of_le_length hn
  have hmono : ∀ b ∈ visited, b ∈ (visitAll ⟨visited, queue⟩ (next a)).visited := fun b hb =>
    mem_visited_visitAll.mpr (Or.inl hb)
  refine ⟨?_, ?_, ?_, fun k hk b hb => hmono b (h.seen k hk b hb), ?_, ?_, h.far⟩
  · rw [hqueue, List.length_append]
    exact hn.trans (Nat.le_add_right _ _)
  · rw [hqueue, htake]
    exact fun b hb => h.front b (List.mem_cons_of_mem _ hb)
  · rw [hqueue, hdrop]
    intro b hb
    rcases List.mem_append.mp hb with hb | hb
    · exact h.back b hb
    · exact .step hcur ((hnew b).mp hb).1
  · rw [hqueue, hdrop]
    intro b hb
    by_cases hold : b ∈ visited
    · exact (h.sound b hold).imp_right fun hb => List.mem_append_left new hb
    · have hb' : b ∈ next a := (mem_visited_visitAll.mp hb).resolve_left hold
      exact Or.inr (List.mem_append_right _ ((hnew b).mpr ⟨hb', hold⟩))
  · rw [hqueue, htake]
    intro k hk b hb
    rcases h.closed k hk b hb with hfront | ⟨hne, hnext⟩
    · rcases List.mem_cons.mp hfront with rfl | hfront
      · -- The element that was looked at.
        exact Or.inr ⟨ha, fun c hc => mem_visited_visitAll.mpr (Or.inr hc)⟩
      · exact Or.inl hfront
    · exact Or.inr ⟨hne, fun c hc => hmono c (hnext c hc)⟩

/-! ## What visits leave to do -/

/-- Visits inside the set stay inside it. -/
theorem visited_visitAll_subset {U : Finset α} {w : Worklist α} {as : List α}
    (hw : w.visited ⊆ U) (has : ∀ a ∈ as, a ∈ U) : (w.visitAll as).visited ⊆ U := by
  intro a ha
  exact (mem_visited_visitAll.mp ha).elim (fun h => hw h) (has a)

/-- A visit inside the set does not add to what is left to do. -/
theorem weightIn_visit_le {U : Finset α} {w : Worklist α} {a : α} (hw : w.visited ⊆ U)
    (ha : a ∈ U) : (w.visit a).weightIn U ≤ w.weightIn U := by
  unfold visit
  split_ifs with h
  · exact le_rfl
  · have hcard := Finset.card_insert_of_notMem h
    have hle := Finset.card_le_card (Finset.insert_subset ha hw)
    simp only [weightIn, List.length_append, List.length_singleton]
    omega

/-- Some visits inside the set do not add to what is left to do. -/
theorem weightIn_visitAll_le {U : Finset α} {w : Worklist α} {as : List α} (hw : w.visited ⊆ U)
    (has : ∀ a ∈ as, a ∈ U) : (w.visitAll as).weightIn U ≤ w.weightIn U := by
  induction as generalizing w with
  | nil => exact le_rfl
  | cons a as ih =>
    have ha := has a List.mem_cons_self
    have hvisit : (w.visit a).visited ⊆ U := fun b hb =>
      (mem_visited_visit.mp hb).elim (fun h => hw h) fun h => h ▸ ha
    exact (ih hvisit fun b hb => has b (List.mem_cons_of_mem _ hb)).trans (weightIn_visit_le hw ha)

/-- Looking at the first element of the queue leaves less to do. -/
theorem weightIn_pop_lt {U visited : Finset α} (a : α) (queue : List α) {as : List α}
    (hvisited : visited ⊆ U) (has : ∀ a ∈ as, a ∈ U) :
    (visitAll ⟨visited, queue⟩ as).weightIn U < weightIn U ⟨visited, a :: queue⟩ := by
  have hle := weightIn_visitAll_le (w := ⟨visited, queue⟩) hvisited has
  have hlt : weightIn U ⟨visited, queue⟩ < weightIn U ⟨visited, a :: queue⟩ := by simp [weightIn]
  exact hle.trans_lt hlt

/-- Looking at the first element of the queue leaves less to do. -/
theorem weight_pop_lt [Fintype α] (visited : Finset α) (a : α) (queue as : List α) :
    (visitAll ⟨visited, queue⟩ as).weight < weight ⟨visited, a :: queue⟩ :=
  weightIn_pop_lt a queue (Finset.subset_univ visited) fun b _ => Finset.mem_univ b

/-! ## Images -/

/-- The images of the elements. -/
def map {β : Type*} (f : α ↪ β) (w : Worklist α) : Worklist β :=
  ⟨w.visited.map f, w.queue.map f⟩

/-- Visiting the images. -/
theorem map_visitAll {β : Type*} [DecidableEq β] (f : α ↪ β) (w : Worklist α) (as : List α) :
    (w.visitAll as).map f = (w.map f).visitAll (as.map f) := by
  induction as generalizing w with
  | nil => rfl
  | cons a as ih =>
    have hvisit : (w.visit a).map f = (w.map f).visit (f a) := by
      have hmem : f a ∈ w.visited.map f ↔ a ∈ w.visited := Finset.mem_map' f
      unfold visit
      by_cases ha : a ∈ w.visited
      · rw [if_pos ha, map, if_pos (hmem.mpr ha)]
      · rw [if_neg ha, map, map, if_neg (mt hmem.mp ha), Finset.map_insert, List.map_append]
        rfl
    have hstep : w.visitAll (a :: as) = (w.visit a).visitAll as := rfl
    rw [hstep, ih, hvisit]
    rfl

end Worklist

end CxxPandora.Lib
