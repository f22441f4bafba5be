import Mathlib.Data.List.TakeWhile

/-!
# Tokens

A sequence with separators in it falls into tokens, its longest stretches without a separator
(`tokens`). `strtok` is what a reader does that takes them one by one: it skips separators, takes
what comes up to the next separator, and goes on behind that. It finds the first token
(`tokens_of_strtok`), or there is none (`tokens_of_strtok_none`).
-/

namespace CxxPandora.Lib

variable {α : Type*} {sep : α → Bool} {a : α} {s t w r : List α}

/-- The tokens of a sequence. -/
def tokens (sep : α → Bool) (s : List α) : List (List α) := (s.splitOnP sep).filter (!·.isEmpty)

/-- The next token, and what comes behind the separator that ends it. -/
def strtok (sep : α → Bool) (s : List α) : Option (List α × List α) :=
  let s' := s.dropWhile sep
  if s'.isEmpty then none else some (s'.takeWhile (!sep ·), (s'.dropWhile (!sep ·)).drop 1)

/-- Nothing has no token. -/
@[simp] theorem tokens_nil : tokens sep [] = [] := rfl

/-- The tokens on both sides of a separator. -/
theorem tokens_append_cons (s t : List α) (ha : sep a = true) :
    tokens sep (s ++ a :: t) = tokens sep s ++ tokens sep t := by
  unfold tokens
  rw [List.splitOnP_append_cons s t ha, List.filter_append]

/-- A separator in front does not matter. -/
theorem tokens_cons (t : List α) (ha : sep a = true) : tokens sep (a :: t) = tokens sep t :=
  tokens_append_cons [] t ha

/-- A sequence without a separator is one token. -/
theorem tokens_eq_singleton (h : ∀ x ∈ s, sep x = false) (hne : s ≠ []) : tokens sep s = [s] := by
  have hs : s.isEmpty = false := List.isEmpty_eq_false_iff.mpr hne
  unfold tokens
  rw [List.splitOnP_eq_singleton h]
  simp [hs]

/-- What is in a token is in the sequence. -/
theorem mem_of_mem_tokens {x : α} (hw : w ∈ tokens sep s) (hx : x ∈ w) : x ∈ s := by
  have hsplit : ∀ v ∈ s.splitOnP sep, x ∈ v → x ∈ s := by
    clear hw
    induction s with
    | nil =>
      intro v hv hx
      rw [List.splitOnP_nil, List.mem_singleton] at hv
      rwa [hv] at hx
    | cons a s ih =>
      intro v hv hx
      rw [List.splitOnP_cons_eq_if_modifyHead] at hv
      split_ifs at hv
      · rcases List.mem_cons.mp hv with rfl | hv
        · exact absurd hx List.not_mem_nil
        · exact List.mem_cons_of_mem a (ih v hv hx)
      · obtain ⟨u, us, hus⟩ := List.exists_cons_of_ne_nil (List.splitOnP_ne_nil sep s)
        rw [hus, List.modifyHead_cons] at hv
        rw [hus] at ih
        rcases List.mem_cons.mp hv with rfl | hv
        · -- The first token goes on in front.
          rcases List.mem_cons.mp hx with rfl | hx
          · exact List.mem_cons_self
          · exact List.mem_cons_of_mem a (ih u List.mem_cons_self hx)
        · exact List.mem_cons_of_mem a (ih v (List.mem_cons_of_mem u hv) hx)
  exact hsplit w (List.mem_filter.mp hw).1 hx

/-- Separators in front do not matter. -/
theorem tokens_dropWhile (s : List α) : tokens sep (s.dropWhile sep) = tokens sep s := by
  induction s with
  | nil => rfl
  | cons a s ih =>
    by_cases ha : sep a = true
    · rw [List.dropWhile_cons_of_pos ha, ih, tokens_cons s ha]
    · rw [List.dropWhile_cons_of_neg ha]

/-- A sequence without a token. -/
theorem tokens_of_strtok_none (h : strtok sep s = none) : tokens sep s = [] := by
  rw [← tokens_dropWhile]
  cases hs : s.dropWhile sep with
  | nil => rfl
  | cons a s' =>
    simp [strtok, hs] at h

/-- The first token of a sequence. -/
theorem tokens_of_strtok (h : strtok sep s = some (w, r)) : tokens sep s = w :: tokens sep r := by
  rw [← tokens_dropWhile]
  cases hs : s.dropWhile sep with
  | nil => simp [strtok, hs] at h
  | cons a s' =>
    have ha : sep a = false := by
      have hhead := List.head?_dropWhile_not sep s
      rw [hs] at hhead
      exact hhead
    have hne : (a :: s').takeWhile (!sep ·) ≠ [] := by
      rw [List.takeWhile_cons_of_pos (by rw [ha]; rfl)]
      exact List.cons_ne_nil a _
    have hw : ∀ x ∈ (a :: s').takeWhile (!sep ·), sep x = false := fun x hx => by
      have hnot := List.mem_takeWhile_imp hx
      rwa [Bool.not_eq_true'] at hnot
    simp only [strtok, hs, List.isEmpty_cons, Bool.false_eq_true, if_false, Option.some.injEq,
      Prod.mk.injEq] at h
    obtain ⟨rfl, rfl⟩ := h
    have hsplit := List.takeWhile_append_dropWhile (p := (!sep ·)) (l := a :: s')
    cases hrest : (a :: s').dropWhile (!sep ·) with
    | nil =>
      rw [hrest, List.append_nil] at hsplit
      rw [List.drop_nil, tokens_nil, ← tokens_eq_singleton hw hne, hsplit]
    | cons b r =>
      -- The token ends at a separator.
      have hb : sep b = true := by
        have hhead := List.head?_dropWhile_not (!sep ·) (a :: s')
        rw [hrest] at hhead
        simpa using hhead
      rw [hrest] at hsplit
      calc tokens sep (a :: s') = tokens sep ((a :: s').takeWhile (!sep ·) ++ b :: r) := by
            rw [hsplit]
        _ = (a :: s').takeWhile (!sep ·) :: tokens sep r := by
            rw [tokens_append_cons _ r hb, tokens_eq_singleton hw hne, List.singleton_append]

end CxxPandora.Lib
