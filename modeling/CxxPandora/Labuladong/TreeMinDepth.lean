import CxxPandora.Lib.Words
import Mathlib.Data.Nat.Find
import Mathlib.Order.Bounds.Basic

/-!
# The minimum depth of a binary tree

`min_depth` of `algorithms/labuladong/bfs/bfs_tree_min_depth.cpp`. The queue holds the nodes of a
level when the outer loop begins a pass (`levelOf`), and no level before has a leaf. The nodes of a
level and the levels are counted in `int`: `measuresDepth_iff` shows for which trees the result is
the number of nodes on a shortest path from the root to a leaf.
-/

namespace CxxPandora.Labuladong.TreeMinDepth

open Lib

/-- A binary tree, `null` for the null pointer. -/
inductive TreeNode
  | null
  | node (val_ : ℤ) (left_ right_ : TreeNode)

namespace TreeNode

/-- Whether a node has no children. -/
def isLeaf : TreeNode → Bool
  | node _ null null => true
  | _ => false

/-- What the queue receives for a child: nothing when it is null. -/
def pushed : TreeNode → List TreeNode
  | null => []
  | t => [t]

/-- The children of a node, from left to right. -/
def children : TreeNode → List TreeNode
  | null => []
  | node _ l r => l.pushed ++ r.pushed

end TreeNode

/-- What a pass of the outer loop comes to. -/
inductive Scan
  /-- A leaf is found, and the function returns. -/
  | found
  /-- The level has none, and the queue holds the next one. -/
  | done (que : List TreeNode)

/-- The inner loop with so many passes left, from counter `i` on; `none` when the queue is empty, a
null pointer is dereferenced, or the counter overflows. -/
def depthLevel : ℕ → ℕ → List TreeNode → Option Scan
  | 0, _, que => some (.done que)
  | _ + 1, _, [] => none
  | _ + 1, _, .null :: _ => none
  | left + 1, i, .node v l r :: que =>
    if (TreeNode.node v l r).isLeaf then some .found
    else
      (checkInt ((i : ℤ) + 1)).bind fun _ => depthLevel left (i + 1) (que ++ l.pushed ++ r.pushed)

/-- The outer loop, at most `fuel` times. -/
def depthLoop : ℕ → List TreeNode → ℤ → Option ℤ
  | 0, _, _ => none
  | fuel + 1, que, depth =>
    if que = [] then some depth
    else
      (depthLevel que.length 0 que).bind fun
        | .found => some depth
        | .done que => (checkInt (depth + 1)).bind (depthLoop fuel que)

/-- `min_depth`; `none` when it is undefined or the fuel does not suffice. -/
def minDepth (fuel : ℕ) : TreeNode → Option ℤ
  | .null => some 0
  | root => depthLoop fuel [root] 1

/-! ## Paths and levels -/

/-- Some path from the root to a leaf has so many nodes. -/
inductive LeafPath : ℕ → TreeNode → Prop
  | leaf (v : ℤ) : LeafPath 1 (.node v .null .null)
  | left {n : ℕ} {l : TreeNode} (v : ℤ) (r : TreeNode) :
      LeafPath n l → LeafPath (n + 1) (.node v l r)
  | right {n : ℕ} {r : TreeNode} (v : ℤ) (l : TreeNode) :
      LeafPath n r → LeafPath (n + 1) (.node v l r)

/-- `min_depth` ends with zero for the empty tree, and otherwise with the number of nodes on a
shortest path from the root to a leaf. -/
def MeasuresDepth (t : TreeNode) : Prop :=
  ∃ d : ℕ, (t = .null ∧ d = 0 ∨ IsLeast {n | LeafPath n t} d) ∧
    ∃ n₀, ∀ fuel, n₀ ≤ fuel → minDepth fuel t = some (d : ℤ)

/-- The nodes so many levels below some nodes, from left to right. -/
def levelOf : ℕ → List TreeNode → List TreeNode
  | 0, nodes => nodes
  | k + 1, nodes => levelOf k (nodes.flatMap TreeNode.children)

/-- The nodes of a level before its first leaf. -/
def beforeLeaf (nodes : List TreeNode) : List TreeNode := nodes.takeWhile fun s => !s.isLeaf

/-- The counters do not overflow: some path to a leaf has fewer than `2^31` nodes, and, on each
level with no leaf above it, fewer than `2^31` nodes come before the first leaf. -/
def Fits (t : TreeNode) : Prop :=
  t = .null ∨ (∃ n < 2^31, LeafPath n t) ∧
    ∀ k, (∀ j < k, ∀ s ∈ levelOf j [t], s.isLeaf = false) →
      (beforeLeaf (levelOf k [t])).length < 2^31

/-! ## The inner loop -/

/-- The inner loop over the rest of a level: it finds a leaf, or collects the next level, or it
overflows before. -/
theorem depthLevel_eq {i : ℕ} {rest : List TreeNode} (back : List TreeNode) (hi : i < 2^31)
    (hnull : .null ∉ rest) :
    depthLevel rest.length i (rest ++ back) =
      if i + (beforeLeaf rest).length < 2^31 then
        if ∀ s ∈ rest, s.isLeaf = false then
          some (.done (back ++ rest.flatMap TreeNode.children))
        else some .found
      else none := by
  induction rest generalizing i back with
  | nil =>
    have hcount : i + (beforeLeaf []).length < 2^31 := hi
    have hnone : ∀ s ∈ ([] : List TreeNode), s.isLeaf = false :=
      fun s hs => absurd hs List.not_mem_nil
    rw [if_pos hcount, if_pos hnone, List.length_nil, depthLevel, List.nil_append,
      List.flatMap_nil, List.append_nil]
  | cons s rest ih =>
    cases s with
    | null => exact absurd List.mem_cons_self hnull
    | node v l r =>
      rw [List.length_cons, List.cons_append, depthLevel]
      by_cases hleaf : (TreeNode.node v l r).isLeaf = true
      · have hbefore : beforeLeaf (.node v l r :: rest) = [] := by simp [beforeLeaf, hleaf]
        have hsome : ¬ ∀ s ∈ TreeNode.node v l r :: rest, s.isLeaf = false := by
          intro hall
          exact Bool.false_ne_true ((hall _ List.mem_cons_self).symm.trans hleaf)
        rw [if_pos hleaf, hbefore, List.length_nil, Nat.add_zero, if_pos hi, if_neg hsome]
      · have hbefore : (beforeLeaf (.node v l r :: rest)).length =
            (beforeLeaf rest).length + 1 := by
          simp [beforeLeaf, hleaf]
        have hall : (∀ s ∈ TreeNode.node v l r :: rest, s.isLeaf = false) ↔
            ∀ s ∈ rest, s.isLeaf = false := by
          simp [hleaf]
        have hsum : i + ((beforeLeaf rest).length + 1) = i + 1 + (beforeLeaf rest).length := by
          omega
        rw [if_neg hleaf, hbefore, hsum]
        simp only [hall]
        rcases checkInt_succ_cases i with ⟨hge, hcheck⟩ | ⟨hlt, hcheck⟩
        · rw [hcheck, Option.bind_none, if_neg (by omega)]
        · have hrest := ih (back ++ l.pushed ++ r.pushed) hlt
            fun hmem => hnull (List.mem_cons_of_mem _ hmem)
          rw [hcheck, Option.bind_some, List.append_assoc, List.append_assoc,
            ← List.append_assoc back, hrest, List.flatMap_cons, TreeNode.children,
            List.append_assoc, List.append_assoc, List.append_assoc]

/-- The inner loop over a level. -/
theorem depthLevel_level {que : List TreeNode} (hnull : .null ∉ que) :
    depthLevel que.length 0 que =
      if (beforeLeaf que).length < 2^31 then
        if ∀ s ∈ que, s.isLeaf = false then some (.done (que.flatMap TreeNode.children))
        else some .found
      else none := by
  have h := depthLevel_eq [] (i := 0) (by decide) hnull
  rwa [List.append_nil, Nat.zero_add, List.nil_append] at h

/-! ## Levels -/

/-- The queue receives no null pointer. -/
theorem null_notMem_pushed (t : TreeNode) : .null ∉ t.pushed := by
  cases t with
  | null => exact List.not_mem_nil
  | node v l r => simp [TreeNode.pushed]

/-- The queue receives a child that is not null. -/
theorem mem_pushed {t s : TreeNode} (hs : s ≠ .null) : s ∈ t.pushed ↔ s = t := by
  cases t with
  | null => simp [TreeNode.pushed, hs]
  | node v l r => simp [TreeNode.pushed]

/-- A level has no null pointer. -/
theorem null_notMem_children (nodes : List TreeNode) : .null ∉ nodes.flatMap TreeNode.children := by
  rw [List.mem_flatMap]
  rintro ⟨t, -, ht⟩
  cases t with
  | null => exact List.not_mem_nil ht
  | node v l r => exact (List.mem_append.mp ht).elim (null_notMem_pushed l) (null_notMem_pushed r)

/-- The levels below no nodes have none. -/
theorem levelOf_nil (k : ℕ) : levelOf k [] = [] := by
  induction k with
  | zero => rfl
  | succ k ih => exact ih

/-- A path to a leaf has a node. -/
theorem LeafPath.pos {n : ℕ} {t : TreeNode} (h : LeafPath n t) : 0 < n := by
  cases h <;> exact Nat.succ_pos _

/-- A path that has one node is that of a leaf. -/
theorem leafPath_one {t : TreeNode} : LeafPath 1 t ↔ t.isLeaf = true := by
  constructor
  · intro h
    cases h with
    | leaf v => rfl
    | left v r h => exact absurd h.pos (Nat.lt_irrefl 0)
    | right v l h => exact absurd h.pos (Nat.lt_irrefl 0)
  · intro h
    match t, h with
    | .node v .null .null, _ => exact .leaf v

/-- The rest of a longer path is that of a child. -/
theorem leafPath_succ {n : ℕ} {t : TreeNode} :
    LeafPath (n + 2) t ↔ ∃ s ∈ t.children, LeafPath (n + 1) s := by
  have hnull : ∀ {s : TreeNode}, LeafPath (n + 1) s → s ≠ .null := by
    rintro _ h rfl
    cases h
  constructor
  · intro h
    cases h with
    | left v r h => exact ⟨_, List.mem_append_left _ ((mem_pushed (hnull h)).mpr rfl), h⟩
    | right v l h => exact ⟨_, List.mem_append_right _ ((mem_pushed (hnull h)).mpr rfl), h⟩
  · rintro ⟨s, hs, h⟩
    cases t with
    | null => exact absurd hs List.not_mem_nil
    | node v l r =>
      rcases List.mem_append.mp hs with hs | hs
      · obtain rfl := (mem_pushed (hnull h)).mp hs
        exact .left v r h
      · obtain rfl := (mem_pushed (hnull h)).mp hs
        exact .right v l h

/-- A level has a leaf when a path to a leaf ends there. -/
theorem exists_leaf_levelOf {k : ℕ} {nodes : List TreeNode} :
    (∃ s ∈ levelOf k nodes, s.isLeaf = true) ↔ ∃ t ∈ nodes, LeafPath (k + 1) t := by
  induction k generalizing nodes with
  | zero => simp only [levelOf, Nat.zero_add, leafPath_one]
  | succ k ih =>
    rw [levelOf, ih]
    simp only [List.mem_flatMap, leafPath_succ]
    constructor
    · rintro ⟨s, ⟨t, ht, hs⟩, h⟩
      exact ⟨t, ht, s, hs, h⟩
    · rintro ⟨t, ht, s, hs, h⟩
      exact ⟨s, ⟨t, ht, hs⟩, h⟩

/-- A tree that is not empty has a leaf. -/
theorem exists_leafPath {t : TreeNode} (ht : t ≠ .null) : ∃ n, LeafPath (n + 1) t := by
  induction t with
  | null => exact absurd rfl ht
  | node v l r ihl ihr =>
    by_cases hl : l = .null
    · by_cases hr : r = .null
      · exact ⟨0, by rw [hl, hr]; exact .leaf v⟩
      · obtain ⟨n, hn⟩ := ihr hr
        exact ⟨n + 1, .right v l hn⟩
    · obtain ⟨n, hn⟩ := ihl hl
      exact ⟨n + 1, .left v r hn⟩

/-! ## The outer loop -/

/-- The counters up to a level, by those of the first level and those from the next one on. -/
theorem countersFit_succ {m d : ℕ} {que : List TreeNode} :
    (d + (m + 1) < 2^31 ∧ ∀ k ≤ m + 1, (beforeLeaf (levelOf k que)).length < 2^31) ↔
      (beforeLeaf que).length < 2^31 ∧ d + 1 + m < 2^31 ∧
        ∀ k ≤ m, (beforeLeaf (levelOf k (que.flatMap TreeNode.children))).length < 2^31 := by
  constructor
  · rintro ⟨hlt, hall⟩
    exact ⟨hall 0 (Nat.zero_le _), by omega, fun k hk => hall (k + 1) (Nat.succ_le_succ hk)⟩
  · rintro ⟨hzero, hlt, hall⟩
    refine ⟨by omega, fun k hk => ?_⟩
    cases k with
    | zero => exact hzero
    | succ k => exact hall k (Nat.le_of_succ_le_succ hk)

/-- The outer loop from a level on, when the first leaf is so many levels below: it returns the
depth of the leaf, or a counter overflows before. -/
theorem depthLoop_eq {m d fuel : ℕ} {que : List TreeNode} (hnull : .null ∉ que)
    (hleaf : ∃ s ∈ levelOf m que, s.isLeaf = true)
    (hfirst : ∀ k < m, ∀ s ∈ levelOf k que, s.isLeaf = false) (hd : d < 2^31) (hfuel : m < fuel) :
    depthLoop fuel que d =
      if d + m < 2^31 ∧ ∀ k ≤ m, (beforeLeaf (levelOf k que)).length < 2^31 then
        some ((d + m : ℕ) : ℤ)
      else none := by
  induction m generalizing que d fuel with
  | zero =>
    obtain ⟨fuel, rfl⟩ := Nat.exists_eq_add_one.mpr hfuel
    obtain ⟨s, hs, hsleaf⟩ := hleaf
    have hne : que ≠ [] := List.ne_nil_of_mem hs
    have hnot : ¬ ∀ s ∈ que, s.isLeaf = false := by
      intro hall
      exact Bool.false_ne_true ((hall s hs).symm.trans hsleaf)
    have hcond : (d + 0 < 2^31 ∧ ∀ k ≤ 0, (beforeLeaf (levelOf k que)).length < 2^31) ↔
        (beforeLeaf que).length < 2^31 := by
      constructor
      · rintro ⟨-, hall⟩
        exact hall 0 (Nat.le_refl 0)
      · intro h
        refine ⟨hd, fun k hk => ?_⟩
        obtain rfl := Nat.le_zero.mp hk
        exact h
    rw [depthLoop, if_neg hne, depthLevel_level hnull, if_neg hnot]
    simp only [hcond]
    split_ifs <;> rfl
  | succ m ih =>
    obtain ⟨fuel, rfl⟩ := Nat.exists_eq_add_one.mpr (Nat.zero_lt_of_lt hfuel)
    have hne : que ≠ [] := by
      rintro rfl
      rw [levelOf_nil] at hleaf
      obtain ⟨s, hs, -⟩ := hleaf
      exact List.not_mem_nil hs
    have hnone : ∀ s ∈ que, s.isLeaf = false := hfirst 0 (Nat.succ_pos m)
    rw [depthLoop, if_neg hne, depthLevel_level hnull, if_pos hnone]
    simp only [countersFit_succ]
    rw [show d + (m + 1) = d + 1 + m by omega]
    by_cases hbefore : (beforeLeaf que).length < 2^31
    · rw [if_pos hbefore, Option.bind_some]
      dsimp only
      rcases checkInt_succ_cases d with ⟨hge, hcheck⟩ | ⟨hlt, hcheck⟩
      · rw [hcheck, Option.bind_none, if_neg fun h => absurd h.2.1 (by omega)]
      · have hnext := ih (null_notMem_children que) hleaf
          (fun k hk => hfirst (k + 1) (Nat.succ_lt_succ hk)) hlt (Nat.lt_of_succ_lt_succ hfuel)
        have hcast : ((d + 1 : ℕ) : ℤ) = (d : ℤ) + 1 := rfl
        rw [hcast] at hnext
        rw [hcheck, Option.bind_some, hnext]
        simp only [hbefore, true_and]
    · rw [if_neg hbefore, Option.bind_none, if_neg fun h => hbefore h.1]

/-! ## The result -/

/-- Up to the first leaf, the levels are those with no leaf above them. -/
theorem le_iff_no_leaf_above {m k : ℕ} {nodes : List TreeNode}
    (hleaf : ∃ s ∈ levelOf m nodes, s.isLeaf = true)
    (hfirst : ∀ k < m, ∀ s ∈ levelOf k nodes, s.isLeaf = false) :
    k ≤ m ↔ ∀ j < k, ∀ s ∈ levelOf j nodes, s.isLeaf = false := by
  constructor
  · exact fun hk j hj => hfirst j (hj.trans_le hk)
  · intro h
    by_contra hlt
    obtain ⟨s, hs, hsleaf⟩ := hleaf
    exact Bool.false_ne_true ((h m (not_le.mp hlt) s hs).symm.trans hsleaf)

/-- The first level of a tree that has a leaf, and the shortest path that ends there. -/
theorem exists_first_leaf {t : TreeNode} (ht : t ≠ .null) :
    ∃ m, IsLeast {n | LeafPath n t} (m + 1) ∧ (∃ s ∈ levelOf m [t], s.isLeaf = true) ∧
      ∀ k < m, ∀ s ∈ levelOf k [t], s.isLeaf = false := by
  have hlevel (k : ℕ) : (∃ s ∈ levelOf k [t], s.isLeaf = true) ↔ LeafPath (k + 1) t := by
    rw [exists_leaf_levelOf]
    exact ⟨fun ⟨s, hs, h⟩ => List.mem_singleton.mp hs ▸ h,
      fun h => ⟨t, List.mem_singleton_self t, h⟩⟩
  obtain ⟨m, hm, hleast⟩ : ∃ m, LeafPath (m + 1) t ∧ ∀ k < m, ¬ LeafPath (k + 1) t := by
    classical
    exact ⟨Nat.find (exists_leafPath ht), Nat.find_spec (exists_leafPath ht),
      fun k hk => Nat.find_min (exists_leafPath ht) hk⟩
  refine ⟨m, ⟨hm, fun n hn => ?_⟩, (hlevel m).mpr hm, fun k hk s hs => ?_⟩
  · obtain ⟨k, rfl⟩ := Nat.exists_eq_add_one.mpr hn.pos
    by_contra hlt
    exact hleast k (by omega) hn
  · by_contra hcon
    exact hleast k hk ((hlevel k).mp ⟨s, hs, Bool.eq_true_of_not_eq_false hcon⟩)

/-- The result for a tree whose first leaf is on a level. -/
theorem minDepth_eq {t : TreeNode} (ht : t ≠ .null) {m fuel : ℕ}
    (hleaf : ∃ s ∈ levelOf m [t], s.isLeaf = true)
    (hfirst : ∀ k < m, ∀ s ∈ levelOf k [t], s.isLeaf = false) (hfuel : m < fuel) :
    minDepth fuel t =
      if 1 + m < 2^31 ∧ ∀ k ≤ m, (beforeLeaf (levelOf k [t])).length < 2^31 then
        some ((1 + m : ℕ) : ℤ)
      else none := by
  have hnull : .null ∉ [t] := fun hmem => ht (List.mem_singleton.mp hmem).symm
  have hloop := depthLoop_eq hnull hleaf hfirst (by decide : 1 < 2^31) hfuel
  cases t with
  | null => exact absurd rfl ht
  | node v l r => exact hloop

/-- When the counters do not overflow, by the first level that has a leaf. -/
theorem fits_iff {t : TreeNode} (ht : t ≠ .null) {m : ℕ}
    (hleast : IsLeast {n | LeafPath n t} (m + 1)) (hleaf : ∃ s ∈ levelOf m [t], s.isLeaf = true)
    (hfirst : ∀ k < m, ∀ s ∈ levelOf k [t], s.isLeaf = false) :
    Fits t ↔ 1 + m < 2^31 ∧ ∀ k ≤ m, (beforeLeaf (levelOf k [t])).length < 2^31 := by
  rw [Fits, or_iff_right ht]
  apply and_congr
  · constructor
    · rintro ⟨n, hn, hpath⟩
      have hle := hleast.2 hpath
      omega
    · intro h
      exact ⟨m + 1, by omega, hleast.1⟩
  · simp only [le_iff_no_leaf_above hleaf hfirst]

/-- A result shows that the counters do not overflow. -/
theorem fits_of_measuresDepth {t : TreeNode} (h : MeasuresDepth t) : Fits t := by
  by_cases ht : t = .null
  · exact Or.inl ht
  · obtain ⟨m, hleast, hleaf, hfirst⟩ := exists_first_leaf ht
    obtain ⟨d, -, n₀, hrun⟩ := h
    have hdefined := hrun (max n₀ (m + 1)) (le_max_left _ _)
    rw [minDepth_eq ht hleaf hfirst (Nat.lt_of_lt_of_le m.lt_succ_self (le_max_right _ _))]
      at hdefined
    rw [fits_iff ht hleast hleaf hfirst]
    by_contra hnot
    rw [if_neg hnot] at hdefined
    exact Option.some_ne_none _ hdefined.symm

/-- When the counters do not overflow, the result is the number of nodes on a shortest path. -/
theorem measuresDepth_of_fits {t : TreeNode} (h : Fits t) : MeasuresDepth t := by
  by_cases ht : t = .null
  · refine ⟨0, Or.inl ⟨ht, rfl⟩, 0, fun fuel _ => ?_⟩
    rw [ht]
    rfl
  · obtain ⟨m, hleast, hleaf, hfirst⟩ := exists_first_leaf ht
    refine ⟨m + 1, Or.inr hleast, m + 1, fun fuel hfuel => ?_⟩
    rw [minDepth_eq ht hleaf hfirst hfuel, if_pos ((fits_iff ht hleast hleaf hfirst).mp h),
      Nat.add_comm]

/-- The result is the number of nodes on a shortest path from the root to a leaf exactly when the
counters do not overflow. -/
theorem measuresDepth_iff (t : TreeNode) : MeasuresDepth t ↔ Fits t :=
  ⟨fits_of_measuresDepth, measuresDepth_of_fits⟩

/-- A tree in which every node but the last has only a left child. -/
def spine : ℕ → TreeNode
  | 0 => .null
  | n + 1 => .node 0 (spine n) .null

/-- The only leaf of the tree is its last node. -/
theorem eq_of_leafPath_spine {n k : ℕ} (h : LeafPath k (spine n)) : k = n := by
  induction n generalizing k with
  | zero => cases h
  | succ n ih =>
    rw [spine] at h
    generalize hl : spine n = l at h
    cases h with
    | leaf v =>
      cases n with
      | zero => rfl
      | succ n => exact absurd hl (by rw [spine]; exact nofun)
    | left v r h =>
      rw [← hl] at h
      rw [ih h]
    | right v l h => cases h

/-- The counter of the levels overflows for a tree of `2^31` nodes one below the other. -/
theorem not_measuresDepth_spine : ¬ MeasuresDepth (spine (2^31)) := by
  intro h
  rcases fits_of_measuresDepth h with hnull | ⟨⟨n, hn, hpath⟩, -⟩
  · have hsucc : spine (2^31) = .node 0 (spine (2^31 - 1)) .null := rfl
    rw [hsucc] at hnull
    exact nomatch hnull
  · exact absurd (eq_of_leafPath_spine hpath) hn.ne

end CxxPandora.Labuladong.TreeMinDepth
