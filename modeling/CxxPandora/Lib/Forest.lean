import Mathlib.Data.List.Basic
import Mathlib.Logic.Encodable.Basic
import Mathlib.Tactic.DeriveEncodable

/-!
# Forests

Labelled trees in a row, each with the forest of its children. An address is the index of a tree,
the index of one of its children, and so on down. A forest is entered at an address (`childrenAt`),
and grows by a leaf in the forest there (`insertAt`). `nested` is one label below the other, so many
times, and a forest below the last: what is entered and grows there is that forest
(`childrenAt_nested`, `insertAt_nested`).
-/

namespace CxxPandora.Lib

/-- A forest: none, or the first tree's label, its children, and the next trees. -/
inductive Forest (α : Type)
  | nil
  | cons (label : α) (children next : Forest α)
deriving DecidableEq, Encodable

namespace Forest

variable {α : Type} {a b : α}

/-- The labels in a row. -/
def labels : Forest α → List α
  | nil => []
  | cons a _ next => a :: labels next

/-- The label and the children of the tree at an index. -/
def tree? : Forest α → ℕ → Option (α × Forest α)
  | nil, _ => none
  | cons a children _, 0 => some (a, children)
  | cons _ _ next, i + 1 => tree? next i

/-- The forest below an address. -/
def childrenAt : Forest α → List ℕ → Forest α
  | ts, [] => ts
  | nil, _ :: _ => nil
  | cons _ children _, 0 :: addr => childrenAt children addr
  | cons _ _ next, (i + 1) :: addr => childrenAt next (i :: addr)

/-- A leaf more in the row, at an index, or at the end. -/
def insert (b : α) : ℕ → Forest α → Forest α
  | 0, ts => cons b nil ts
  | _ + 1, nil => cons b nil nil
  | j + 1, cons a children next => cons a children (insert b j next)

/-- A leaf more below an address. -/
def insertAt (b : α) (j : ℕ) : List ℕ → Forest α → Forest α
  | [], ts => insert b j ts
  | _ :: _, nil => nil
  | 0 :: addr, cons a children next => cons a (insertAt b j addr children) next
  | (i + 1) :: addr, cons a children next => cons a children (insertAt b j (i :: addr) next)

/-- The index of the first label from an index on that satisfies a predicate. -/
def findFrom (p : α → Bool) (start : ℕ) (ts : Forest α) : Option ℕ :=
  ((labels ts).drop start).findIdx? p |>.map (start + ·)

/-- The address that is reached by following some predicates: the first tree whose label satisfies
the first one, below it the first one whose label satisfies the next, and so on. -/
def follow : List (α → Bool) → Forest α → Option (List ℕ)
  | [], _ => some []
  | p :: ps, ts => (findFrom p 0 ts).bind fun i => (follow ps (childrenAt ts [i])).map (i :: ·)

/-- How many of the predicates can be followed. -/
def followed : List (α → Bool) → Forest α → ℕ
  | [], _ => 0
  | p :: ps, ts =>
    match findFrom p 0 ts with
    | none => 0
    | some i => followed ps (childrenAt ts [i]) + 1

/-- One label below the other, and a forest below the last. -/
def nested (a : α) : ℕ → Forest α → Forest α
  | 0, ts => ts
  | k + 1, ts => cons a (nested a k ts) nil

/-- The address of a label in such a forest. -/
def down (k : ℕ) : List ℕ := List.replicate k 0

/-- The next address down. -/
theorem down_succ (k : ℕ) : down (k + 1) = down k ++ [0] := List.replicate_succ'

/-- The forest below some of the labels. -/
theorem childrenAt_nested (j k : ℕ) (ts : Forest α) :
    childrenAt (nested a (j + k) ts) (down j) = nested a k ts := by
  induction j with
  | zero => rw [Nat.zero_add, down, List.replicate_zero, childrenAt]
  | succ j ih => rw [Nat.succ_add, nested, down, List.replicate_succ, childrenAt, ← down, ih]

/-- A leaf below the last label. -/
theorem insertAt_nested (k : ℕ) (j : ℕ) (ts : Forest α) :
    insertAt b j (down k) (nested a k ts) = nested a k (insert b j ts) := by
  induction k with
  | zero => rw [down, List.replicate_zero, nested, nested, insertAt]
  | succ k ih => rw [down, List.replicate_succ, nested, nested, insertAt, ← down, ih]

/-- The label itself as the leaf. -/
theorem nested_cons (k : ℕ) : nested a k (cons a nil nil) = nested a (k + 1) nil := by
  induction k with
  | zero => rfl
  | succ k ih =>
    rw [nested, ih]
    rfl

/-- An address below an address. -/
theorem childrenAt_append (ts : Forest α) (addr addr' : List ℕ) :
    childrenAt ts (addr ++ addr') = childrenAt (childrenAt ts addr) addr' := by
  fun_induction childrenAt ts addr with
  | case1 ts => rfl
  | case2 i addr =>
    cases addr' with
    | nil => rw [List.append_nil]; rfl
    | cons i' addr' => rfl
  | case3 a children next addr ih => exact ih
  | case4 a children next i addr ih => exact ih

/-- When an address is reached, all predicates are followed. -/
theorem followed_of_follow {ps : List (α → Bool)} {ts : Forest α} {addr : List ℕ}
    (h : follow ps ts = some addr) : followed ps ts = ps.length := by
  induction ps generalizing ts addr with
  | nil => rfl
  | cons p ps ih =>
    obtain ⟨i, hi, hrest⟩ := Option.bind_eq_some_iff.mp h
    obtain ⟨addr', haddr', -⟩ := Option.map_eq_some_iff.mp hrest
    rw [followed, hi, List.length_cons]
    exact congrArg (· + 1) (ih haddr')

/-- When none is reached, some predicate cannot be followed. -/
theorem followed_lt {ps : List (α → Bool)} {ts : Forest α} (h : follow ps ts = none) :
    followed ps ts < ps.length := by
  induction ps generalizing ts with
  | nil => exact absurd h (Option.some_ne_none _)
  | cons p ps ih =>
    rw [follow] at h
    rw [followed, List.length_cons]
    cases hi : findFrom p 0 ts with
    | none => exact Nat.succ_pos _
    | some i =>
      rw [hi, Option.bind_some, Option.map_eq_none_iff] at h
      exact Nat.succ_lt_succ (ih h)

/-- One more predicate. -/
theorem follow_append (ps : List (α → Bool)) (p : α → Bool) (ts : Forest α) :
    follow (ps ++ [p]) ts =
      (follow ps ts).bind fun addr =>
        (findFrom p 0 (childrenAt ts addr)).map fun i => addr ++ [i] := by
  induction ps generalizing ts with
  | nil =>
    rw [List.nil_append, follow, follow, Option.bind_some, childrenAt]
    cases findFrom p 0 ts <;> rfl
  | cons q ps ih =>
    rw [List.cons_append, follow, follow]
    cases hi : findFrom q 0 ts with
    | none => rfl
    | some i =>
      rw [Option.bind_some, Option.bind_some, ih]
      cases hfollow : follow ps (childrenAt ts [i]) with
      | none => rfl
      | some addr =>
        rw [Option.bind_some, Option.map_some, Option.bind_some, ← childrenAt_append,
          List.singleton_append]
        cases findFrom p 0 (childrenAt ts (i :: addr)) <;> rfl

/-- When the first predicates cannot be followed, one more does not matter. -/
theorem followed_append_of_lt {ps : List (α → Bool)} {ts : Forest α} (p : α → Bool)
    (h : follow ps ts = none) : followed (ps ++ [p]) ts = followed ps ts := by
  induction ps generalizing ts with
  | nil => exact absurd h (Option.some_ne_none _)
  | cons q ps ih =>
    rw [follow] at h
    rw [List.cons_append, followed, followed]
    cases hi : findFrom q 0 ts with
    | none => rfl
    | some i =>
      rw [hi, Option.bind_some, Option.map_eq_none_iff] at h
      exact congrArg (· + 1) (ih h)

/-- One more predicate does not shorten what is followed. -/
theorem followed_le_append (ps : List (α → Bool)) (p : α → Bool) (ts : Forest α) :
    followed ps ts ≤ followed (ps ++ [p]) ts := by
  induction ps generalizing ts with
  | nil => exact Nat.zero_le _
  | cons q ps ih =>
    rw [List.cons_append, followed, followed]
    cases findFrom q 0 ts with
    | none => exact Nat.le_refl _
    | some i => exact Nat.succ_le_succ (ih _)

/-- An index that is found is one of the row, from the start on. -/
theorem bounds_of_findFrom {p : α → Bool} {start i : ℕ} {ts : Forest α}
    (h : findFrom p start ts = some i) : start ≤ i ∧ i < (labels ts).length := by
  obtain ⟨j, hj, rfl⟩ := Option.map_eq_some_iff.mp h
  obtain ⟨hlt, -⟩ := List.findIdx?_eq_some_iff_getElem.mp hj
  rw [List.length_drop] at hlt
  omega

/-- What is found in a row of one label. -/
theorem findFrom_singleton (p : α → Bool) (children : Forest α) :
    findFrom p 0 (cons a children nil) = if p a = true then some 0 else none := by
  rw [findFrom, labels, List.drop_zero, List.findIdx?_cons]
  split_ifs <;> rfl

end Forest

end CxxPandora.Lib
