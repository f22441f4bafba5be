import CxxPandora.Lib.Backtracking

/-!
# Permutations by backtracking

`backtrack` of `algorithms/labuladong/dfs/bt_permute.cpp`. It works on one `track`, to which it
appends an element, and from which it removes the element after the recursion. `backtrack_permutes`
shows that what it appends to the results are the permutations that extend the track.
-/

namespace CxxPandora.Labuladong.Permute

open Lib

/-- What the references of `backtrack` refer to. -/
structure Search where
  /-- `nums`. -/
  nums : List ℤ
  /-- `track`. -/
  track : List ℤ
  /-- `results`. -/
  results : List (List ℤ)
  deriving DecidableEq

/-- `track.pop_back()`, undefined when the track is empty. -/
def Search.popBack (s : Search) : Option Search :=
  if s.track = [] then none else some { s with track := s.track.dropLast }

/-- `backtrack`; `none` when it is undefined or the recursion is deeper than the fuel. -/
def backtrack : ℕ → Search → Option Search
  | 0, _ => none
  | fuel + 1, s =>
    let s' := if s.nums.length = s.track.length then { s with results := s.results ++ [s.track] }
      else s
    -- There is no return before the loop.
    s'.nums.foldlM (fun s v =>
      if v ∈ s.track then some s
      else (backtrack fuel { s with track := s.track ++ [v] }).bind Search.popBack) s'

/-- The recursion leaves the numbers and the track as they are, and appends the permutations that
extend the track in depth-first order. -/
theorem backtrack_eq {nums track : List ℤ} {fuel : ℕ} (htrack : track.Nodup)
    (hsub : track ⊆ nums) (hfuel : nums.length - track.length < fuel)
    (results : List (List ℤ)) :
    backtrack fuel ⟨nums, track, results⟩ =
      some ⟨nums, track,
        results ++ extensions (unused nums) (nums.length - track.length) track⟩ := by
  induction fuel generalizing track results with
  | zero => exact absurd hfuel (Nat.not_lt_zero _)
  | succ fuel ih =>
    have hle := (List.subperm_of_subset htrack hsub).length_le
    rw [backtrack]
    by_cases hlen : nums.length = track.length
    · -- All numbers are in the track, and the loop skips them.
      have hperm := (List.subperm_of_subset htrack hsub).perm_of_length_le hlen.le
      have hskip : ∀ v ∈ nums, v ∈ track := fun v hv => hperm.mem_iff.mpr hv
      have hzero : nums.length - track.length = 0 := by omega
      rw [if_pos hlen, hzero, extensions]
      exact foldlM_skip fun v hv => if_pos (hskip v hv)
    · obtain ⟨k, hk⟩ : ∃ k, nums.length - track.length = k + 1 :=
        Nat.exists_eq_add_one.mpr (by omega)
      rw [if_neg hlen, hk, extensions, unused]
      refine foldlM_collect (fun found => (⟨nums, track, found⟩ : Search)) ?_ ?_ results
      · intro v _ hv found
        exact if_pos (not_not.mp (of_decide_eq_false hv))
      · intro v hv hnot found
        have hnot : v ∉ track := of_decide_eq_true hnot
        have htrack' : (track ++ [v]).Nodup := List.nodup_append'.mpr
          ⟨htrack, List.nodup_singleton v, List.disjoint_singleton.mpr hnot⟩
        have hsub' : track ++ [v] ⊆ nums :=
          List.append_subset.mpr ⟨hsub, List.cons_subset.mpr ⟨hv, List.nil_subset nums⟩⟩
        have hlen' : nums.length - (track ++ [v]).length = k := by
          rw [List.length_append, List.length_singleton]
          omega
        rw [if_neg hnot, ih htrack' hsub' (by omega), Option.bind_some, hlen', Search.popBack,
          if_neg (List.append_ne_nil_of_right_ne_nil track (List.cons_ne_nil v []))]
        dsimp only
        rw [List.dropLast_concat]

/-- `backtrack` ends, leaves the numbers and the track as they are, and appends the permutations of
the numbers that extend the track, each once, in the lexicographic order of their positions. -/
theorem backtrack_permutes {nums track : List ℤ} (hnums : nums.Nodup) (htrack : track.Nodup)
    (hsub : ∀ v ∈ track, v ∈ nums) (results : List (List ℤ)) :
    ∃ found : List (List ℤ),
      (∀ p, p ∈ found ↔ p.Perm nums ∧ track <+: p) ∧ found.Nodup ∧
        found.Pairwise (List.Lex fun a b => nums.idxOf a < nums.idxOf b) ∧
        (track = [] → found.length = nums.length.factorial) ∧
        ∃ n₀, ∀ fuel, n₀ ≤ fuel →
          backtrack fuel ⟨nums, track, results⟩ = some ⟨nums, track, results ++ found⟩ := by
  refine ⟨extensions (unused nums) (nums.length - track.length) track,
    fun p => mem_extensions_unused hnums htrack hsub, ?_, ?_, ?_,
    nums.length - track.length + 1, fun fuel hfuel => backtrack_eq htrack hsub hfuel results⟩
  · exact nodup_extensions (fun path => hnums.filter _) _ _
  · exact pairwise_extensions (fun path => (pairwise_idxOf hnums).filter _) _ _
  · rintro rfl
    exact length_extensions_unused hnums

/-- The permutations of three numbers. -/
theorem backtrack_permutes_three :
    ∃ found : List (List ℤ),
      (∀ p, p ∈ found ↔ p.Perm [1, 2, 3] ∧ [] <+: p) ∧ found.Nodup ∧
        found.Pairwise (List.Lex fun a b => List.idxOf a [1, 2, 3] < List.idxOf b [1, 2, 3]) ∧
        (([] : List ℤ) = [] → found.length = [1, 2, 3].length.factorial) ∧
        ∃ n₀, ∀ fuel, n₀ ≤ fuel →
          backtrack fuel ⟨[1, 2, 3], [], []⟩ = some ⟨[1, 2, 3], [], [] ++ found⟩ :=
  backtrack_permutes (by decide) List.nodup_nil (fun v hv => absurd hv List.not_mem_nil) []

example : backtrack 4 ⟨[1, 2, 3], [], []⟩ =
    some ⟨[1, 2, 3], [],
      [[1, 2, 3], [1, 3, 2], [2, 1, 3], [2, 3, 1], [3, 1, 2], [3, 2, 1]]⟩ := by
  decide

end CxxPandora.Labuladong.Permute
