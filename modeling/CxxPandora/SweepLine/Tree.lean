import CxxPandora.Lib.CoverTree
import CxxPandora.Lib.Words

/-!
# The segment tree of the sweep line

`Build`, `pushup`, and `update` of `dsaax/sweep_line/sweep_line.cpp`, on an array of nodes in which
node `k` has the children `2 * k` and `2 * k + 1`. An access out of the arrays and an overflow are
undefined (`none`). The array represents a `CoverTree`, and `update_spec` says that the update of
the array represents the update of the tree.
-/

namespace CxxPandora.SweepLine

open Lib

/-! ## The model -/

/-- The length of `Seg` and of `X`. -/
def segSize : ℕ := 800010

/-- The length of `Tree`. -/
def treeSize : ℕ := 1600010

/-- `SegTree`: the first and the last elementary interval of the node, how often it is covered, and
the length that is covered. -/
structure SegTree where
  l : ℕ
  r : ℕ
  sum : ℤ
  len : ℤ
  deriving DecidableEq, Repr

/-- `Build`. The recursion from node 0 would not end. -/
def Build (Tree : ℕ → SegTree) (k l r : ℕ) : Option (ℕ → SegTree) :=
  if 0 < k ∧ k < treeSize then
    let Tree := Function.update Tree k ⟨l, r, 0, 0⟩
    if l = r then some Tree
    else
      let mid := (l + r) / 2
      (Build Tree (2 * k) l mid).bind fun Tree => Build Tree (2 * k + 1) (mid + 1) r
  else none
termination_by treeSize - k

/-- `pushup`. -/
def pushup (X : ℕ → ℤ) (Tree : ℕ → SegTree) (k : ℕ) : Option (ℕ → SegTree) :=
  let l := (Tree k).l
  let r := (Tree k).r
  if (Tree k).sum ≠ 0 then
    (checkLong (X (r + 1) - X l)).map fun len => Function.update Tree k { Tree k with len := len }
  else if 2 * k + 1 < treeSize then
    (checkLong ((Tree (2 * k)).len + (Tree (2 * k + 1)).len)).map fun len =>
      Function.update Tree k { Tree k with len := len }
  else none

/-- `update`. -/
def update (X : ℕ → ℤ) (Tree : ℕ → SegTree) (k : ℕ) (L R val : ℤ) : Option (ℕ → SegTree) :=
  if 0 < k ∧ k < treeSize ∧ (Tree k).r + 1 < segSize then
    let l := (Tree k).l
    let r := (Tree k).r
    -- The interval misses the node.
    if X (r + 1) ≤ L ∨ R ≤ X l then some Tree
    -- The interval covers the node: nothing is pushed down.
    else if L ≤ X l ∧ X (r + 1) ≤ R then
      (checkInt ((Tree k).sum + val)).bind fun sum =>
        pushup X (Function.update Tree k { Tree k with sum := sum }) k
    else
      (update X Tree (2 * k) L R val).bind fun Tree =>
        (update X Tree (2 * k + 1) L R val).bind fun Tree => pushup X Tree k
  else none
termination_by treeSize - k

/-! ## The nodes below a node -/

/-- Node `j` is node `k` or below it. -/
def Below (k j : ℕ) : Prop := ∃ d, j / 2^d = k

/-- A node is below itself. -/
theorem Below.refl (k : ℕ) : Below k k := ⟨0, by rw [Nat.pow_zero, Nat.div_one]⟩

/-- What is below a child is below the node. -/
theorem Below.of_child {k c j : ℕ} (h : Below c j) (hc : c / 2 = k) : Below k j := by
  obtain ⟨d, hd⟩ := h
  exact ⟨d + 1, by rw [Nat.pow_succ, ← Nat.div_div_eq_div_mul, hd, hc]⟩

/-- A node below another one has at least its number, and twice that if it is another one. -/
theorem Below.eq_or_two_mul_le {k j : ℕ} (h : Below k j) : j = k ∨ 2 * k ≤ j := by
  obtain ⟨d, hd⟩ := h
  cases d with
  | zero =>
    rw [Nat.pow_zero, Nat.div_one] at hd
    exact .inl hd
  | succ d =>
    have hle : 2^(d + 1) * k ≤ j := by
      rw [← hd]
      exact Nat.mul_div_le j _
    have hpow : 2 * k ≤ 2^(d + 1) * k :=
      Nat.mul_le_mul_right k (Nat.le_self_pow (Nat.succ_ne_zero d) 2)
    exact .inr (hpow.trans hle)

/-- No node is below both children of a node. -/
theorem Below.not_both {k j : ℕ} (hk : 0 < k) (h : Below (2 * k) j) (h' : Below (2 * k + 1) j) :
    False := by
  obtain ⟨d, hd⟩ := h
  obtain ⟨d', hd'⟩ := h'
  -- The one that is reached later is below the other one.
  have hstep : ∀ {d d' a : ℕ}, j / 2^d = a → d ≤ d' → Below (j / 2^d') a := by
    intro d d' a ha hle
    refine ⟨d' - d, ?_⟩
    rw [← ha, Nat.div_div_eq_div_mul, ← Nat.pow_add, Nat.add_sub_cancel' hle]
  obtain hle | hle := Nat.le_total d d'
  · have hb := hstep hd hle
    rw [hd'] at hb
    obtain hb | hb := hb.eq_or_two_mul_le
    · omega
    · omega
  · have hb := hstep hd' hle
    rw [hd] at hb
    obtain hb | hb := hb.eq_or_two_mul_le
    · omega
    · omega

/-! ## The tree that the array represents -/

/-- Node `k` of the array is the root of the tree. The nodes under a leaf have no length. -/
def Represents (Tree : ℕ → SegTree) : ℕ → {l r : ℕ} → CoverTree ℤ l r → Prop
  | k, _, _, .leaf i sum len =>
    Tree k = ⟨i, i, sum, len⟩ ∧ (Tree (2 * k)).len = 0 ∧ (Tree (2 * k + 1)).len = 0
  | k, l, r, .node sum len left right =>
    Tree k = ⟨l, r, sum, len⟩ ∧ Represents Tree (2 * k) left ∧ Represents Tree (2 * k + 1) right

/-- The arrays `Tree` and `Tree'` differ in nodes below `k` only. -/
def SameOutside (k : ℕ) (Tree Tree' : ℕ → SegTree) : Prop := ∀ j, ¬ Below k j → Tree' j = Tree j

/-- Node `j` belongs to the tree that the array holds under node `k`. A leaf has one elementary
interval. -/
inductive Node (Tree : ℕ → SegTree) (j : ℕ) : ℕ → Prop
  | root : Node Tree j j
  | left {k : ℕ} : (Tree k).l ≠ (Tree k).r → Node Tree j (2 * k) → Node Tree j k
  | right {k : ℕ} : (Tree k).l ≠ (Tree k).r → Node Tree j (2 * k + 1) → Node Tree j k

variable {X : ℕ → ℤ} {Tree Tree' : ℕ → SegTree} {k l r : ℕ}

/-- What an array represents depends on the nodes below the root. -/
theorem Represents.congr {t : CoverTree ℤ l r} (h : Represents Tree k t)
    (hsame : ∀ j, Below k j → Tree' j = Tree j) : Represents Tree' k t := by
  have hk := hsame k (.refl k)
  have hleft : ∀ j, Below (2 * k) j → Tree' j = Tree j := fun j hj =>
    hsame j (hj.of_child (by omega))
  have hright : ∀ j, Below (2 * k + 1) j → Tree' j = Tree j := fun j hj =>
    hsame j (hj.of_child (by omega))
  induction t generalizing k with
  | leaf i sum len =>
    obtain ⟨hroot, hl, hr⟩ := h
    refine ⟨hk.trans hroot, ?_, ?_⟩
    · rw [hleft _ (.refl _), hl]
    · rw [hright _ (.refl _), hr]
  | node sum len left right ihl ihr =>
    obtain ⟨hroot, hl, hr⟩ := h
    refine ⟨hk.trans hroot, ?_, ?_⟩
    · exact ihl hl hleft (hleft _ (.refl _)) (fun j hj => hleft j (hj.of_child (by omega)))
        (fun j hj => hleft j (hj.of_child (by omega)))
    · exact ihr hr hright (hright _ (.refl _)) (fun j hj => hright j (hj.of_child (by omega)))
        (fun j hj => hright j (hj.of_child (by omega)))

/-- The node at the root. -/
theorem Represents.root {t : CoverTree ℤ l r} (h : Represents Tree k t) :
    (Tree k).l = l ∧ (Tree k).r = r ∧ (Tree k).len = t.len := by
  cases t with
  | leaf =>
    rw [h.1]
    exact ⟨rfl, rfl, rfl⟩
  | node =>
    rw [h.1]
    exact ⟨rfl, rfl, rfl⟩

/-- Which nodes belong to the tree depends on their ranges. -/
theorem Node.congr {j : ℕ} (h : Node Tree j k)
    (hsame : ∀ i, Below k i → (Tree' i).l = (Tree i).l ∧ (Tree' i).r = (Tree i).r) :
    Node Tree' j k := by
  induction h with
  | root => exact .root
  | @left k hne _ ih =>
    obtain ⟨hl, hr⟩ := hsame k (.refl k)
    exact .left (by rwa [hl, hr]) (ih fun i hi => hsame i (hi.of_child (by omega)))
  | @right k hne _ ih =>
    obtain ⟨hl, hr⟩ := hsame k (.refl k)
    exact .right (by rwa [hl, hr]) (ih fun i hi => hsame i (hi.of_child (by omega)))

/-- What holds of all counts in the tree holds of the nodes that belong to it. -/
theorem Represents.sum_of_all {t : CoverTree ℤ l r} {P : ℤ → Prop} {j : ℕ}
    (h : Represents Tree k t) (hall : t.All fun sum _ => P sum) (hj : Node Tree j k) :
    P (Tree j).sum := by
  induction hj generalizing l r with
  | root =>
    cases t with
    | leaf =>
      rw [h.1]
      exact hall
    | node =>
      rw [h.1]
      exact hall.1
  | left hne _ ih =>
    cases t with
    | leaf => exact absurd (by rw [h.1]) hne
    | node => exact ih h.2.1 hall.2.1
  | right hne _ ih =>
    cases t with
    | leaf => exact absurd (by rw [h.1]) hne
    | node => exact ih h.2.2 hall.2.2

/-- A change below the left child leaves what the right child is the root of. -/
theorem Represents.right_of_left {m : ℕ} {t : CoverTree ℤ (m + 1) r} (hk : 0 < k)
    (h : Represents Tree (2 * k + 1) t) (hsame : SameOutside (2 * k) Tree Tree') :
    Represents Tree' (2 * k + 1) t :=
  h.congr fun j hj => hsame j fun hj' => hj'.not_both hk hj

/-- A change below the right child leaves what the left child is the root of. -/
theorem Represents.left_of_right {m : ℕ} {t : CoverTree ℤ l m} (hk : 0 < k)
    (h : Represents Tree (2 * k) t) (hsame : SameOutside (2 * k + 1) Tree Tree') :
    Represents Tree' (2 * k) t :=
  h.congr fun j hj => hsame j fun hj' => hj.not_both hk hj'

/-- A node is not below its children. -/
theorem not_below_child {c : ℕ} (hk : 0 < k) (hc : 2 * k ≤ c) : ¬ Below c k := fun h => by
  obtain h | h := h.eq_or_two_mul_le
  · omega
  · omega

/-- A change of node `k` leaves the nodes below its children. -/
theorem update_below_child {c j : ℕ} (hk : 0 < k) (hc : 2 * k ≤ c) (hj : Below c j)
    (node : SegTree) : Function.update Tree k node j = Tree j := by
  apply Function.update_of_ne
  rintro rfl
  exact not_below_child hk hc hj

/-- A change of node `k` leaves what its children are the roots of. -/
theorem Represents.update_root {t : CoverTree ℤ l r} {c : ℕ} (hk : 0 < k) (hc : 2 * k ≤ c)
    (h : Represents Tree c t) (node : SegTree) :
    Represents (Function.update Tree k node) c t :=
  h.congr fun _ hj => update_below_child hk hc hj node

/-- A change of node `k` changes nothing outside. -/
theorem sameOutside_update {node : SegTree} :
    SameOutside k Tree (Function.update Tree k node) := by
  intro j hj
  apply Function.update_of_ne
  rintro rfl
  exact hj (.refl _)

/-- Changes below the children, one after the other, are changes below the node that leave the node
itself. -/
theorem SameOutside.children {Tree₁ Tree₂ : ℕ → SegTree} (hk : 0 < k)
    (h₁ : SameOutside (2 * k) Tree Tree₁) (h₂ : SameOutside (2 * k + 1) Tree₁ Tree₂) :
    SameOutside k Tree Tree₂ ∧ Tree₂ k = Tree k := by
  constructor
  · intro j hj
    rw [h₂ j fun hj' => hj (hj'.of_child (by omega)), h₁ j fun hj' => hj (hj'.of_child (by omega))]
  · rw [h₂ k (not_below_child hk (by omega)), h₁ k (not_below_child hk le_rfl)]

/-! ## `Build` -/

/-- A built tree counts no interval, its height is logarithmic, and it is in the array. `Build`
changes the nodes below its root only. -/
theorem Build_spec (X : ℕ → ℤ) (hk : 0 < k) (hlr : l ≤ r)
    (hzero : ∀ j, Below k j → (Tree j).len = 0)
    (h : Build Tree k l r = some Tree') :
    (∃ t : CoverTree ℤ l r, Represents Tree' k t ∧ t.Counts X 0 ∧
      ∀ d, r - l < 2^d → t.height ≤ d) ∧ SameOutside k Tree Tree' ∧
      ∀ j, Node Tree' j k → j < treeSize := by
  induction hn : r - l using Nat.strong_induction_on generalizing k l r Tree Tree' with
  | _ n ih =>
    rw [Build] at h
    split_ifs at h with hbound hlr'
    · -- A leaf: its children are not built.
      subst hlr'
      obtain rfl := Option.some.inj h
      have hroot : Function.update Tree k ⟨l, l, 0, 0⟩ k = ⟨l, l, 0, 0⟩ := Function.update_self ..
      have hchild : ∀ c, 2 * k ≤ c → c / 2 = k →
          (Function.update Tree k ⟨l, l, 0, 0⟩ c).len = 0 := by
        intro c hc hck
        rw [Function.update_of_ne (by omega)]
        exact hzero c ((Below.refl c).of_child hck)
      refine ⟨⟨.leaf l 0 0, ⟨hroot, ?_, ?_⟩, CoverTree.counts_leaf_zero l,
        fun d _ => Nat.zero_le d⟩, sameOutside_update, fun j hj => ?_⟩
      · exact hchild _ le_rfl (by omega)
      · exact hchild _ (by omega) (by omega)
      · cases hj with
        | root => exact hbound.2
        | left hne _ => exact absurd (by rw [hroot]) hne
        | right hne _ => exact absurd (by rw [hroot]) hne
    · obtain ⟨T₁, hleft, hright⟩ := Option.bind_eq_some_iff.mp h
      -- The left subtree, and then the right one, of which the left one has changed nothing.
      have hzerol : ∀ j, Below (2 * k) j → (Function.update Tree k ⟨l, r, 0, 0⟩ j).len = 0 := by
        intro j hj
        rw [update_below_child hk le_rfl hj]
        exact hzero j (hj.of_child (by omega))
      obtain ⟨⟨tl, htl, hcl, hdl⟩, hsamel, hltl⟩ :=
        ih _ (by omega) (by omega) (by omega) hzerol hleft rfl
      have hzeror : ∀ j, Below (2 * k + 1) j → (T₁ j).len = 0 := by
        intro j hj
        rw [hsamel j fun hj' => hj'.not_both hk hj, update_below_child hk (by omega) hj]
        exact hzero j (hj.of_child (by omega))
      obtain ⟨⟨tr, htr, hcr, hdr⟩, hsamer, hltr⟩ :=
        ih _ (by omega) (by omega) (by omega) hzeror hright rfl
      obtain ⟨hsame, hroot⟩ := hsamel.children hk hsamer
      refine ⟨⟨.node 0 0 tl tr, ⟨?_, htl.left_of_right hk hsamer, htr⟩,
        CoverTree.counts_node_zero hcl hcr, fun d hd => ?_⟩, fun j hj => ?_, fun j hj => ?_⟩
      · rw [hroot, Function.update_self]
      -- Each half has at most half of the elementary intervals.
      · cases d with
        | zero => omega
        | succ d =>
          have hl := hdl d (by omega)
          have hr := hdr d (by omega)
          rw [CoverTree.height]
          omega
      · rw [hsame j hj, sameOutside_update j hj]
      · cases hj with
        | root => exact hbound.2
        | left _ hj =>
          -- The right subtree has changed nothing below the left child.
          refine hltl j (hj.congr fun i hi => ?_)
          rw [hsamer i fun hi' => hi.not_both hk hi']
          exact ⟨rfl, rfl⟩
        | right _ hj => exact hltr j hj

/-- `Build` stays in the array when the levels below its root do. -/
theorem Build_isSome {d : ℕ} (hk : 0 < k) (hlr : l ≤ r) (hd : r - l < 2^d)
    (hsize : (k + 1) * 2^d ≤ treeSize) : ∃ Tree', Build Tree k l r = some Tree' := by
  induction d generalizing k l r Tree with
  | zero =>
    have hlr' : l = r := by omega
    rw [Build, if_pos ⟨hk, by omega⟩, if_pos hlr']
    exact ⟨_, rfl⟩
  | succ d ih =>
    -- The last node of the last level below either child is below that of node `k`.
    have hpow : (k + 1) * 2^(d + 1) = (2 * k + 2) * 2^d := by
      rw [Nat.pow_succ]
      ring
    have hone : k + 1 ≤ (k + 1) * 2^(d + 1) := Nat.le_mul_of_pos_right _ (Nat.two_pow_pos _)
    rw [Build, if_pos ⟨hk, by omega⟩]
    dsimp only
    split_ifs with hlr'
    · exact ⟨_, rfl⟩
    · have hsizel : (2 * k + 1) * 2^d ≤ treeSize :=
        (Nat.mul_le_mul_right _ (by omega)).trans (hpow ▸ hsize)
      have hsizer : (2 * k + 1 + 1) * 2^d ≤ treeSize := hpow ▸ hsize
      obtain ⟨T₁, hleft⟩ : ∃ T₁, Build (Function.update Tree k ⟨l, r, 0, 0⟩) (2 * k) l
          ((l + r) / 2) = some T₁ := ih (by omega) (by omega) (by omega) hsizel
      rw [hleft, Option.bind_some]
      exact ih (by omega) (by omega) (by omega) hsizer

/-! ## `update` -/

/-- `pushup` stores the length that follows from the count and the lengths of the children. -/
theorem pushup_spec {sum len a b : ℤ} (hroot : Tree k = ⟨l, r, sum, len⟩)
    (ha : (Tree (2 * k)).len = a) (hb : (Tree (2 * k + 1)).len = b) :
    (∀ Tree', pushup X Tree k = some Tree' →
      Tree' = Function.update Tree k
        ⟨l, r, sum, if sum ≠ 0 then X (r + 1) - X l else a + b⟩) ∧
    (2 * k + 1 < treeSize →
      (checkLong (if sum ≠ 0 then X (r + 1) - X l else a + b)).isSome →
      ∃ Tree', pushup X Tree k = some Tree') := by
  unfold pushup
  rw [hroot, ha, hb]
  dsimp only
  by_cases hsum : sum ≠ 0
  · rw [if_pos hsum, if_pos hsum]
    refine ⟨fun Tree' h => ?_, fun _ h => ?_⟩
    · obtain ⟨len', hlen, rfl⟩ := Option.map_eq_some_iff.mp h
      rw [eq_of_checkLong hlen]
    · obtain ⟨len', hlen⟩ := Option.isSome_iff_exists.mp h
      exact ⟨_, by rw [hlen, Option.map_some]⟩
  · rw [if_neg hsum, if_neg hsum]
    refine ⟨fun Tree' h => ?_, fun hk h => ?_⟩
    · split_ifs at h
      obtain ⟨len', hlen, rfl⟩ := Option.map_eq_some_iff.mp h
      rw [eq_of_checkLong hlen]
    · obtain ⟨len', hlen⟩ := Option.isSome_iff_exists.mp h
      exact ⟨_, by rw [if_pos hk, hlen, Option.map_some]⟩

/-- A count that an `int` holds and a length that a `long long` holds. -/
def Fits (sum len : ℤ) : Prop := (checkInt sum).isSome ∧ (checkLong len).isSome

/-- The branch of `update` for a node that the interval covers. -/
theorem update_covered {sum len a b val : ℤ} (hk : 0 < k) (hroot : Tree k = ⟨l, r, sum, len⟩)
    (ha : (Tree (2 * k)).len = a) (hb : (Tree (2 * k + 1)).len = b) :
    (∀ Tree', ((checkInt (sum + val)).bind fun sum =>
        pushup X (Function.update Tree k { Tree k with sum := sum }) k) = some Tree' →
      Tree' = Function.update Tree k
        ⟨l, r, sum + val, if sum + val ≠ 0 then X (r + 1) - X l else a + b⟩) ∧
    (2 * k + 1 < treeSize →
      Fits (sum + val) (if sum + val ≠ 0 then X (r + 1) - X l else a + b) →
      ∃ Tree', ((checkInt (sum + val)).bind fun sum =>
        pushup X (Function.update Tree k { Tree k with sum := sum }) k) = some Tree') := by
  have hpush := fun s =>
    @pushup_spec X (Function.update Tree k { Tree k with sum := s }) k l r s len
    a b (by rw [Function.update_self, hroot]) (by rw [Function.update_of_ne (by omega), ha])
    (by rw [Function.update_of_ne (by omega), hb])
  constructor
  · intro Tree' h
    obtain ⟨s, hs, h⟩ := Option.bind_eq_some_iff.mp h
    obtain rfl := eq_of_checkInt hs
    rw [(hpush _).1 Tree' h, Function.update_idem]
  · rintro hsize ⟨hsum, hlen⟩
    obtain ⟨s, hs⟩ := Option.isSome_iff_exists.mp hsum
    obtain rfl := eq_of_checkInt hs
    rw [hs, Option.bind_some]
    exact (hpush _).2 hsize hlen

/-- The subtree that stays in the array with one level below its leaves. -/
theorem children_lt {h : ℕ} (hsize : (k + 1) * 2^(h + 1) ≤ treeSize) : 2 * k + 1 < treeSize := by
  have hpow : (k + 1) * 2 ≤ (k + 1) * 2^(h + 1) :=
    Nat.mul_le_mul_left _ (Nat.le_self_pow (Nat.succ_ne_zero h) 2)
  omega

/-- The subtree of a child stays in the array as well. -/
theorem child_size {h h' c : ℕ} (hc : c ≤ 2 * k + 1) (hh : h' + 1 ≤ h)
    (hsize : (k + 1) * 2^(h + 1) ≤ treeSize) : (c + 1) * 2^(h' + 1) ≤ treeSize := by
  calc (c + 1) * 2^(h' + 1) ≤ (2 * (k + 1)) * 2^h :=
        Nat.mul_le_mul (by omega) (Nat.pow_le_pow_right (by omega) hh)
    _ = (k + 1) * 2^(h + 1) := by
        rw [Nat.pow_succ]
        ring
    _ ≤ treeSize := hsize

/-- The branches of `update`. -/
theorem update_eq {sum len L R val : ℤ} (hroot : Tree k = ⟨l, r, sum, len⟩) :
    update X Tree k L R val =
      if 0 < k ∧ k < treeSize ∧ r + 1 < segSize then
        if Misses X l r (L, R) then some Tree
        else if Covers X l r (L, R) then
          (checkInt (sum + val)).bind fun sum =>
            pushup X (Function.update Tree k { Tree k with sum := sum }) k
        else
          (update X Tree (2 * k) L R val).bind fun Tree =>
            (update X Tree (2 * k + 1) L R val).bind fun Tree => pushup X Tree k
      else none := by
  rw [update, hroot]
  rfl

/-- The update of the array represents the update of the tree, and changes the nodes below its root
only. The ends of the interval cut no leaf, so that the recursion ends there. -/
theorem update_spec {t : CoverTree ℤ l r} {L R val : ℤ} (hk : 0 < k) (ht : Represents Tree k t)
    (hI : Aligned X l r (L, R)) (h : update X Tree k L R val = some Tree') :
    Represents Tree' k (t.update X (L, R) val) ∧ SameOutside k Tree Tree' := by
  induction t generalizing k Tree Tree' with
  | leaf i sum len =>
    obtain ⟨hroot, hl, hr⟩ := ht
    rw [update_eq hroot] at h
    unfold CoverTree.update
    split_ifs at h with hbound hmiss hcovers
    · obtain rfl := Option.some.inj h
      rw [if_pos hmiss]
      exact ⟨⟨hroot, hl, hr⟩, fun _ _ => rfl⟩
    · obtain rfl := (update_covered hk hroot hl hr).1 Tree' h
      rw [if_neg hmiss]
      refine ⟨⟨Function.update_self .., ?_, ?_⟩, sameOutside_update⟩
      · rw [Function.update_of_ne (by omega), hl]
      · rw [Function.update_of_ne (by omega), hr]
    · exact absurd ((hI i le_rfl le_rfl).resolve_left hmiss) hcovers
  | @node l m r sum len left right ihl ihr =>
    obtain ⟨hroot, hl, hr⟩ := ht
    rw [update_eq hroot] at h
    unfold CoverTree.update
    split_ifs at h with hbound hmiss hcovers
    · obtain rfl := Option.some.inj h
      rw [if_pos hmiss]
      exact ⟨⟨hroot, hl, hr⟩, fun _ _ => rfl⟩
    · obtain rfl := (update_covered hk hroot hl.root.2.2 hr.root.2.2).1 Tree' h
      rw [if_neg hmiss, if_pos hcovers]
      exact ⟨⟨Function.update_self .., hl.update_root hk le_rfl _,
        hr.update_root hk (by omega) _⟩, sameOutside_update⟩
    · -- Both children, and then the length of the node, which they leave alone.
      have hlm := left.le
      have hmr := right.le
      obtain ⟨T₁, hleft, h⟩ := Option.bind_eq_some_iff.mp h
      obtain ⟨T₂, hright, h⟩ := Option.bind_eq_some_iff.mp h
      obtain ⟨hl₁, hsame₁⟩ := ihl (by omega) hl (hI.mono le_rfl (by omega)) hleft
      obtain ⟨hr₂, hsame₂⟩ := ihr (by omega) (hr.right_of_left hk hsame₁)
        (hI.mono (by omega) le_rfl) hright
      have hl₂ := hl₁.left_of_right hk hsame₂
      obtain ⟨hsame, hroot₂⟩ := hsame₁.children hk hsame₂
      rw [hroot] at hroot₂
      obtain rfl := (pushup_spec hroot₂ hl₂.root.2.2 hr₂.root.2.2).1 Tree' h
      rw [if_neg hmiss, if_neg hcovers]
      refine ⟨⟨Function.update_self .., hl₂.update_root hk le_rfl _,
        hr₂.update_root hk (by omega) _⟩, fun j hj => ?_⟩
      rw [sameOutside_update j hj, hsame j hj]

/-- The update of the array is defined when the nodes and what is stored in them fit. -/
theorem update_isSome {t : CoverTree ℤ l r} {L R val : ℤ} (hk : 0 < k) (ht : Represents Tree k t)
    (hI : Aligned X l r (L, R)) (hsize : (k + 1) * 2^(t.height + 1) ≤ treeSize)
    (hseg : r + 1 < segSize) (hfits : (t.update X (L, R) val).All Fits) :
    ∃ Tree', update X Tree k L R val = some Tree' := by
  have hchild := children_lt hsize
  induction t generalizing k Tree with
  | leaf i sum len =>
    obtain ⟨hroot, hl, hr⟩ := ht
    rw [update_eq hroot, if_pos ⟨hk, by omega, hseg⟩]
    unfold CoverTree.update at hfits
    split_ifs with hmiss hcovers
    · exact ⟨_, rfl⟩
    · rw [if_neg hmiss] at hfits
      exact (update_covered hk hroot hl hr).2 hchild hfits
    · exact absurd ((hI i le_rfl le_rfl).resolve_left hmiss) hcovers
  | @node l m r sum len left right ihl ihr =>
    obtain ⟨hroot, hl, hr⟩ := ht
    rw [update_eq hroot, if_pos ⟨hk, by omega, hseg⟩]
    unfold CoverTree.update at hfits
    split_ifs with hmiss hcovers
    · exact ⟨_, rfl⟩
    · rw [if_neg hmiss, if_pos hcovers] at hfits
      exact (update_covered hk hroot hl.root.2.2 hr.root.2.2).2 hchild hfits.1
    · rw [if_neg hmiss, if_neg hcovers] at hfits
      obtain ⟨hfits, hfitsl, hfitsr⟩ := hfits
      have hlm := left.le
      have hmr := right.le
      have hsizel : (2 * k + 1) * 2^(left.height + 1) ≤ treeSize :=
        child_size (by omega) (Nat.succ_le_succ (Nat.le_max_left ..)) hsize
      have hsizer : (2 * k + 1 + 1) * 2^(right.height + 1) ≤ treeSize :=
        child_size (by omega) (Nat.succ_le_succ (Nat.le_max_right ..)) hsize
      -- The left child, the right child in what the left one leaves, and then the node itself.
      have hIl := hI.mono le_rfl (show m ≤ r by omega)
      have hIr := hI.mono (show l ≤ m + 1 by omega) le_rfl
      obtain ⟨T₁, hleft⟩ := ihl (by omega) hl hIl hsizel (by omega) hfitsl (children_lt hsizel)
      obtain ⟨hl₁, hsame₁⟩ := update_spec (by omega) hl hIl hleft
      have hr₁ := hr.right_of_left hk hsame₁
      obtain ⟨T₂, hright⟩ := ihr (by omega) hr₁ hIr hsizer hseg hfitsr (children_lt hsizer)
      obtain ⟨hr₂, hsame₂⟩ := update_spec (by omega) hr₁ hIr hright
      have hroot₂ := (hsame₁.children hk hsame₂).2.trans hroot
      rw [hleft, Option.bind_some, hright, Option.bind_some]
      exact (pushup_spec hroot₂ (hl₁.left_of_right hk hsame₂).root.2.2 hr₂.root.2.2).2 hchild
        hfits.2

/-- The update of a tree that counts some intervals is defined when the tree has at most 18 levels
below its root, and what it is to store fits. -/
theorem Represents.update_isSome {t : CoverTree ℤ 1 r} {L R val : ℤ} {S : Multiset (ℤ × ℤ)}
    (ht : Represents Tree 1 t) (hX : StrictMonoOn X (Set.Icc 1 (r + 1)))
    (hI : Aligned X 1 r (L, R)) (hcounts : (t.update X (L, R) val).Counts X S)
    (hheight : t.height ≤ 18) (hseg : r + 1 < segSize) (hcard : S.card < 2^31)
    (hwidth : X (r + 1) - X 1 < 2^63) : ∃ Tree', update X Tree 1 L R val = some Tree' := by
  -- What the updated tree stores is bounded by what it counts.
  have hall := hcounts.all hX le_rfl le_rfl
  have hsize : (1 + 1) * 2^(t.height + 1) ≤ treeSize := by
    have hpow : 2^(t.height + 1) ≤ 2^19 :=
      Nat.pow_le_pow_right Nat.two_pos (Nat.succ_le_succ hheight)
    unfold treeSize
    omega
  refine SweepLine.update_isSome Nat.one_pos ht hI hsize hseg (hall.imp fun sum len hnode => ?_)
  unfold Fits checkInt checkLong intMin intMax longMin longMax
  constructor
  · rw [if_pos ⟨by omega, by omega⟩]
    rfl
  · rw [if_pos ⟨by omega, by omega⟩]
    rfl

end CxxPandora.SweepLine
