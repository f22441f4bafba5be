import Mathlib.Data.List.Lex
import Mathlib.Data.List.Nodup
import Mathlib.Data.List.Permutation

/-!
# Backtracking

A search that extends a path by one element at a time, in depth-first order, and undoes what it did
before it tries the next element. `extensions` lists the paths that it completes: what they are
(`mem_extensions`), that each comes once and in lexicographic order (`pairwise_extensions`), and
what a loop that restores its state collects (`foldlM_collect`). With the elements not used yet as
the choices, the paths are the permutations (`mem_extensions_unused`).
-/

namespace CxxPandora.Lib

variable {α β σ : Type*} {choices : List α → List α} {n : ℕ} {path p : List α}

/-- The paths that extend a path by so many elements, each one of the choices that the path before
it leaves, in the order of a depth-first search. -/
def extensions (choices : List α → List α) : ℕ → List α → List (List α)
  | 0, path => [path]
  | n + 1, path => (choices path).flatMap fun a => extensions choices n (path ++ [a])

/-- Each element is one of the choices that the path before it leaves. -/
def Permitted (choices : List α → List α) : List α → List α → Prop
  | _, [] => True
  | path, a :: rest => a ∈ choices path ∧ Permitted choices (path ++ [a]) rest

/-- The paths are those whose elements are choices. -/
theorem mem_extensions :
    p ∈ extensions choices n path ↔
      ∃ rest, rest.length = n ∧ Permitted choices path rest ∧ p = path ++ rest := by
  induction n generalizing path with
  | zero =>
    rw [extensions, List.mem_singleton]
    constructor
    · rintro rfl
      exact ⟨[], rfl, trivial, (List.append_nil p).symm⟩
    · rintro ⟨rest, hlen, -, rfl⟩
      rw [List.length_eq_zero_iff.mp hlen, List.append_nil]
  | succ n ih =>
    simp only [extensions, List.mem_flatMap, ih]
    constructor
    · rintro ⟨a, ha, rest, rfl, hrest, rfl⟩
      exact ⟨a :: rest, rfl, ⟨ha, hrest⟩, List.append_assoc _ _ _⟩
    · rintro ⟨rest, hlen, hrest, rfl⟩
      obtain ⟨a, rest, rfl⟩ := List.exists_cons_of_length_eq_add_one hlen
      refine ⟨a, hrest.1, rest, Nat.succ.inj hlen, hrest.2, ?_⟩
      rw [List.append_assoc, List.singleton_append]

/-- Each element is one of the choices that the elements before it leave. -/
theorem permitted_iff_getElem {rest : List α} :
    Permitted choices path rest ↔
      ∀ i (h : i < rest.length), rest[i] ∈ choices (path ++ rest.take i) := by
  induction rest generalizing path with
  | nil => exact iff_of_true trivial fun i hi => absurd hi (Nat.not_lt_zero i)
  | cons a rest ih =>
    rw [Permitted, ih]
    constructor
    · rintro ⟨ha, hrest⟩ i hi
      cases i with
      | zero => simpa using ha
      | succ i => simpa using hrest i (Nat.lt_of_succ_lt_succ hi)
    · intro h
      refine ⟨by simpa using h 0 (Nat.succ_pos _), fun i hi => ?_⟩
      simpa using h (i + 1) (Nat.succ_lt_succ hi)

/-- When the choices are in an order, the paths are in its lexicographic order. -/
theorem pairwise_extensions {r : α → α → Prop} (h : ∀ path, (choices path).Pairwise r) (n : ℕ)
    (path : List α) : (extensions choices n path).Pairwise (List.Lex r) := by
  induction n generalizing path with
  | zero => exact List.pairwise_singleton _ _
  | succ n ih =>
    rw [extensions, List.pairwise_flatMap]
    refine ⟨fun a _ => ih _, (h path).imp fun {a b} hab p hp q hq => ?_⟩
    obtain ⟨rest, -, -, rfl⟩ := mem_extensions.mp hp
    obtain ⟨rest', -, -, rfl⟩ := mem_extensions.mp hq
    rw [List.append_assoc, List.append_assoc]
    exact List.Lex.append_left r (List.Lex.rel hab) path

/-- When no choice comes twice, no path comes twice. -/
theorem nodup_extensions (h : ∀ path, (choices path).Nodup) (n : ℕ) (path : List α) :
    (extensions choices n path).Nodup :=
  (pairwise_extensions h n path).imp fun hlex => List.Lex.to_ne hlex

/-- A loop that skips every element leaves the state as it was. -/
theorem foldlM_skip {step : σ → α → Option σ} {l : List α} {s : σ}
    (hskip : ∀ a ∈ l, step s a = some s) : l.foldlM step s = some s := by
  induction l with
  | nil => rfl
  | cons a l ih =>
    rw [List.foldlM_cons, hskip a List.mem_cons_self]
    exact ih fun b hb => hskip b (List.mem_cons_of_mem a hb)

/-- A loop that skips some elements collects what its other passes find, when each pass leaves the
rest of the state as it was. -/
theorem foldlM_collect (state : List β → σ) {choose : α → Bool} {f : α → List β}
    {step : σ → α → Option σ} {l : List α}
    (hskip : ∀ a ∈ l, choose a = false → ∀ found, step (state found) a = some (state found))
    (hstep : ∀ a ∈ l, choose a = true → ∀ found,
      step (state found) a = some (state (found ++ f a))) (found : List β) :
    l.foldlM step (state found) = some (state (found ++ (l.filter choose).flatMap f)) := by
  induction l generalizing found with
  | nil => rw [List.filter_nil, List.flatMap_nil, List.append_nil]; rfl
  | cons a l ih =>
    have hl := ih (fun b hb => hskip b (List.mem_cons_of_mem a hb))
      fun b hb => hstep b (List.mem_cons_of_mem a hb)
    rw [List.foldlM_cons]
    cases hc : choose a with
    | false =>
      rw [hskip a List.mem_cons_self hc, List.filter_cons_of_neg (by simp [hc])]
      exact hl found
    | true =>
      rw [hstep a List.mem_cons_self hc, List.filter_cons_of_pos hc, List.flatMap_cons,
        ← List.append_assoc]
      exact hl (found ++ f a)

/-! ## Permutations -/

section Unused

variable [DecidableEq α] {nums : List α}

/-- The elements that a path has not used. -/
def unused (nums path : List α) : List α := nums.filter (· ∉ path)

/-- The elements that extend a path are different, and not in the path. -/
theorem permitted_unused {rest : List α} :
    Permitted (unused nums) path rest ↔ (∀ a ∈ rest, a ∈ nums ∧ a ∉ path) ∧ rest.Nodup := by
  induction rest generalizing path with
  | nil => exact iff_of_true trivial ⟨fun a ha => absurd ha List.not_mem_nil, List.nodup_nil⟩
  | cons b rest ih =>
    rw [Permitted, ih, unused, List.mem_filter, decide_eq_true_eq, List.nodup_cons,
      List.forall_mem_cons]
    simp only [List.mem_append, List.mem_singleton, not_or]
    constructor
    · rintro ⟨hb, hrest, hnodup⟩
      exact ⟨⟨hb, fun a ha => ⟨(hrest a ha).1, (hrest a ha).2.1⟩⟩,
        fun hmem => (hrest b hmem).2.2 rfl, hnodup⟩
    · rintro ⟨⟨hb, hrest⟩, hnot, hnodup⟩
      exact ⟨hb, fun a ha => ⟨(hrest a ha).1, (hrest a ha).2, ne_of_mem_of_not_mem ha hnot⟩, hnodup⟩

/-- The paths that use all elements are the permutations. -/
theorem mem_extensions_unused (hnums : nums.Nodup) (hpath : path.Nodup) (hsub : path ⊆ nums) :
    p ∈ extensions (unused nums) (nums.length - path.length) path ↔ p.Perm nums ∧ path <+: p := by
  have hle := (List.subperm_of_subset hpath hsub).length_le
  rw [mem_extensions]
  constructor
  · rintro ⟨rest, hlen, hrest, rfl⟩
    obtain ⟨hmem, hnodup⟩ := permitted_unused.mp hrest
    have hnodup' : (path ++ rest).Nodup :=
      List.nodup_append'.mpr ⟨hpath, hnodup, fun a ha ha' => (hmem a ha').2 ha⟩
    have hsub' : path ++ rest ⊆ nums :=
      List.append_subset.mpr ⟨hsub, fun a ha => (hmem a ha).1⟩
    have hlen' : nums.length ≤ (path ++ rest).length := by
      rw [List.length_append]
      omega
    exact ⟨(List.subperm_of_subset hnodup' hsub').perm_of_length_le hlen',
      List.prefix_append path rest⟩
  · rintro ⟨hperm, rest, rfl⟩
    obtain ⟨-, hnodup, hdisjoint⟩ := List.nodup_append'.mp (hperm.nodup_iff.mpr hnums)
    have hlen := hperm.length_eq
    rw [List.length_append] at hlen
    refine ⟨rest, by omega, permitted_unused.mpr ⟨fun a ha => ⟨?_, fun ha' => ?_⟩, hnodup⟩, rfl⟩
    · exact hperm.subset (List.mem_append_right path ha)
    · exact hdisjoint ha' ha

/-- Different elements are in the order of their positions. -/
theorem pairwise_idxOf (hnums : nums.Nodup) :
    nums.Pairwise fun a b => nums.idxOf a < nums.idxOf b := by
  rw [List.pairwise_iff_getElem]
  intro i j hi hj hij
  rwa [hnums.idxOf_getElem, hnums.idxOf_getElem]

/-- All permutations are as many as the factorial. -/
theorem length_extensions_unused (hnums : nums.Nodup) :
    (extensions (unused nums) nums.length []).length = nums.length.factorial := by
  rw [← List.length_permutations]
  apply List.Perm.length_eq
  refine (List.perm_ext_iff_of_nodup ?_ (List.nodup_permutations nums hnums)).mpr fun p => ?_
  · exact nodup_extensions (fun path => hnums.filter _) _ _
  · have hmem := mem_extensions_unused (p := p) hnums List.nodup_nil (List.nil_subset nums)
    rw [List.length_nil, Nat.sub_zero] at hmem
    rw [hmem, List.mem_permutations, and_iff_left (List.nil_prefix)]

end Unused

end CxxPandora.Lib
