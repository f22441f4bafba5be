import CxxPandora.Lib.Words
import Mathlib.Data.Finset.Card
import Mathlib.Data.List.Induction

/-!
# Maps to `int`

A `std::unordered_map` with `int` values, whose order nothing depends on. `operator[]` on a key that
is not there inserts the value zero, so that `IntMap.val` is zero there. `IntMap.countAll` is the
loop that counts the elements of a range: it overflows exactly when some element is there `2^31`
times or more (`countAll_spec`, `countAll_eq_none`).
-/

namespace CxxPandora.Lib

/-- A map to `int`. -/
structure IntMap (α : Type*) where
  /-- The keys that are there. -/
  keys : Finset α
  /-- What `operator[]` returns. -/
  val : α → ℤ
  /-- It returns zero for the other keys. -/
  absent : ∀ a ∉ keys, val a = 0

namespace IntMap

variable {α : Type*} [DecidableEq α]

/-- The empty map. -/
def empty : IntMap α := ⟨∅, fun _ => 0, fun _ _ => rfl⟩

/-- `size()`. -/
def size (m : IntMap α) : ℕ := m.keys.card

/-- `m[a] = z`. -/
def set (m : IntMap α) (a : α) (z : ℤ) : IntMap α where
  keys := insert a m.keys
  val := Function.update m.val a z
  absent b hb := by
    rw [Finset.mem_insert, not_or] at hb
    rw [Function.update_of_ne hb.1, m.absent b hb.2]

/-- `m[a] += z`. -/
def add (m : IntMap α) (a : α) (z : ℤ) : Option (IntMap α) :=
  (checkInt (m.val a + z)).map (m.set a)

/-- The loop that counts the elements of a range. -/
def countAll (as : List α) : Option (IntMap α) := as.foldlM (fun m a => m.add a 1) empty

/-- The keys after a value is set. -/
theorem keys_set (m : IntMap α) (a : α) (z : ℤ) : (m.set a z).keys = insert a m.keys := rfl

/-- The value that was set. -/
theorem val_set_self (m : IntMap α) (a : α) (z : ℤ) : (m.set a z).val a = z := by
  simp [set]

/-- The other values. -/
theorem val_set_of_ne (m : IntMap α) {a b : α} (z : ℤ) (h : b ≠ a) :
    (m.set a z).val b = m.val b := by
  simp [set, h]

/-- An addition that does not overflow. -/
theorem add_eq (m : IntMap α) (a : α) {z : ℤ} (h : -2^31 ≤ m.val a + z) (h' : m.val a + z < 2^31) :
    m.add a z = some (m.set a (m.val a + z)) := by
  rw [add, checkInt_eq h h', Option.map_some]

/-- Counting one element more. -/
theorem countAll_concat (as : List α) (a : α) :
    countAll (as ++ [a]) = (countAll as).bind fun m => m.add a 1 := by
  rw [countAll, List.foldlM_append]
  simp [countAll]

/-- What the loop has counted. -/
theorem countAll_spec {as : List α} {m : IntMap α} (h : countAll as = some m) :
    m.keys = as.toFinset ∧ ∀ a, m.val a = as.count a ∧ (as.count a : ℤ) ≤ intMax := by
  induction as using List.reverseRecOn generalizing m with
  | nil =>
    obtain rfl := Option.some.inj h
    exact ⟨rfl, fun a => ⟨rfl, by rw [List.count_nil]; unfold intMax; omega⟩⟩
  | append_singleton as b ih =>
    rw [countAll_concat] at h
    obtain ⟨m₀, h₀, hadd⟩ := Option.bind_eq_some_iff.mp h
    obtain ⟨hkeys, hval⟩ := ih h₀
    obtain ⟨z, hz, rfl⟩ := Option.map_eq_some_iff.mp hadd
    obtain rfl := eq_of_checkInt hz
    have hle : m₀.val b + 1 ≤ intMax := by
      unfold checkInt at hz
      split_ifs at hz with hcheck
      exact hcheck.2
    refine ⟨?_, fun a => ?_⟩
    · rw [keys_set, hkeys, List.toFinset_append, Finset.union_comm]
      rfl
    · rw [List.count_append]
      rcases eq_or_ne a b with rfl | hne
      · rw [val_set_self, List.count_singleton_self, (hval a).1]
        rw [(hval a).1] at hle
        exact ⟨by omega, by omega⟩
      · rw [val_set_of_ne _ _ hne, List.count_singleton, if_neg (by simpa using hne.symm)]
        exact hval a

/-- The loop counts elements that are there fewer than `2^31` times. -/
theorem countAll_isSome {as : List α} (h : ∀ a, as.count a < 2^31) : ∃ m, countAll as = some m := by
  induction as using List.reverseRecOn with
  | nil => exact ⟨empty, rfl⟩
  | append_singleton as b ih =>
    have hpre : ∀ a, as.count a < 2^31 := fun a => by
      have hle := h a
      rw [List.count_append] at hle
      omega
    obtain ⟨m, hm⟩ := ih hpre
    have hb := h b
    rw [List.count_append, List.count_singleton_self] at hb
    have hval := ((countAll_spec hm).2 b).1
    exact ⟨_, by rw [countAll_concat, hm, Option.bind_some, add_eq m b (by omega) (by omega)]⟩

/-- The loop overflows on an element that is there `2^31` times. -/
theorem countAll_eq_none {as : List α} {a : α} (h : 2^31 ≤ as.count a) : countAll as = none := by
  cases hm : countAll as with
  | none => rfl
  | some m =>
    have hle := ((countAll_spec hm).2 a).2
    unfold intMax at hle
    omega

end IntMap

end CxxPandora.Lib
