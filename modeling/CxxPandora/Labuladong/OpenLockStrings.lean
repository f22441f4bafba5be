import CxxPandora.Labuladong.OpenLock
import CxxPandora.Lib.Words

/-!
# The combination lock on strings

`openLock` of `algorithms/labuladong/bfs/bfs_open_lock.cpp` on any string as the target. Its states
are strings, and `plusOne` and `minusOne` of `bfs_open_lock_copy.cpp` change one character.
`openLock_shortest` shows that the search ends, and returns the least number of turns that lead to
the target around the dead ends. The strings that it can see are those of the combinations of
`CxxPandora.Labuladong.OpenLock`, which is where the search ends from.
-/

namespace CxxPandora.Labuladong.OpenLock.Strings

open Lib

/-- `"0000"`. -/
def zero : List UInt8 := [48, 48, 48, 48]

/-- `plusOne`; `none` where `s[j]` is out of its bounds. -/
def plusOne (s : List UInt8) (j : ℕ) : Option (List UInt8) :=
  s[j]?.map fun c => if c = 57 then s.set j 48 else s.set j (c + 1)

/-- `minusOne`. -/
def minusOne (s : List UInt8) (j : ℕ) : Option (List UInt8) :=
  s[j]?.map fun c => if c = 48 then s.set j 57 else s.set j (c - 1)

/-- The body of the inner loop after the comparison with the target. -/
def expand (deadends : List (List UInt8)) (w : Worklist (List UInt8)) (cur : List UInt8) :
    Option (Worklist (List UInt8)) :=
  if cur ∈ deadends then some w
  else
    (List.range 4).foldlM (fun w j =>
      (plusOne cur j).bind fun up => (minusOne cur j).map fun down => (w.visit up).visit down) w

/-- The inner loop, `sz` times; `none` where it would take from an empty queue. -/
def openLockLevel (deadends : List (List UInt8)) (target : List UInt8) :
    ℕ → Worklist (List UInt8) → Option (Scan (Worklist (List UInt8)))
  | 0, w => some (.done w)
  | sz + 1, w =>
    match w.queue with
    | [] => none
    | cur :: rest =>
      if target = cur then some .found
      else (expand deadends ⟨w.visited, rest⟩ cur).bind (openLockLevel deadends target sz)

/-- The outer loop, at most `fuel` times. -/
def openLockLoop (deadends : List (List UInt8)) (target : List UInt8) :
    ℕ → Worklist (List UInt8) → ℤ → Option ℤ
  | 0, _, _ => none
  | fuel + 1, w, step =>
    if w.queue = [] then some (-1)
    else
      (openLockLevel deadends target w.queue.length w).bind fun
        | .found => some step
        | .done w' => (checkInt (step + 1)).bind (openLockLoop deadends target fuel w')

/-- `openLock`; `none` when it is undefined or the fuel does not suffice. -/
def openLock (fuel : ℕ) (deadends : List (List UInt8)) (target : List UInt8) : Option ℤ :=
  openLockLoop deadends target fuel ⟨{zero}, [zero]⟩ 0

/-- A path of so many turns of one of the four wheels, that goes on from no dead end. -/
inductive Path (deadends : List (List UInt8)) : ℕ → List UInt8 → Prop
  | start : Path deadends 0 zero
  | turn {k : ℕ} {s s' : List UInt8} {j : ℕ} : Path deadends k s → s ∉ deadends → j < 4 →
      plusOne s j = some s' ∨ minusOne s j = some s' → Path deadends (k + 1) s'

/-! ## The strings of combinations -/

/-- The character of a digit. -/
def digit (d : Fin 10) : UInt8 := UInt8.ofNat (48 + d)

/-- A character of a combination. -/
theorem getElem?_str (c : Code) (j : Fin 4) : c.str[(j : ℕ)]? = some (digit (c.digits j)) := by
  rw [Code.str, List.getElem?_ofFn, dif_pos j.isLt]
  rfl

/-- Changing a character of a combination. -/
theorem set_str (c : Code) (j : Fin 4) (d : Fin 10) :
    c.str.set j (digit d) = (⟨Function.update c.digits j d⟩ : Code).str := by
  apply List.ext_getElem (by simp [Code.str])
  intro i hi hi'
  rw [List.getElem_set]
  simp only [Code.str, List.getElem_ofFn]
  split_ifs with hij
  · have hj : (⟨i, by simpa [Code.str] using hi'⟩ : Fin 4) = j := Fin.ext hij.symm
    rw [hj, Function.update_self]
    rfl
  · rw [Function.update_of_ne fun h => hij (congrArg Fin.val h).symm]

/-- The character above that of a digit. -/
theorem digit_add_one (d : Fin 10) :
    (digit d = 57 ↔ d = 9) ∧ (d ≠ 9 → digit d + 1 = digit (d + 1)) := by
  revert d
  decide

/-- The character below that of a digit. -/
theorem digit_sub_one (d : Fin 10) :
    (digit d = 48 ↔ d = 0) ∧ (d ≠ 0 → digit d - 1 = digit (d - 1)) := by
  revert d
  decide

/-- Turning a wheel of a combination up. -/
theorem plusOne_str (c : Code) (j : Fin 4) :
    plusOne c.str j = some (OpenLock.plusOne c j).str := by
  obtain ⟨hnine, hnext⟩ := digit_add_one (c.digits j)
  rw [plusOne, getElem?_str, Option.map_some, OpenLock.plusOne]
  by_cases h : c.digits j = 9
  · rw [if_pos (hnine.mpr h), if_pos h]
    exact congrArg some (set_str c j 0)
  · rw [if_neg (mt hnine.mp h), if_neg h, hnext h, set_str]

/-- Turning a wheel of a combination down. -/
theorem minusOne_str (c : Code) (j : Fin 4) :
    minusOne c.str j = some (OpenLock.minusOne c j).str := by
  obtain ⟨hzero, hnext⟩ := digit_sub_one (c.digits j)
  rw [minusOne, getElem?_str, Option.map_some, OpenLock.minusOne]
  by_cases h : c.digits j = 0
  · rw [if_pos (hzero.mpr h), if_pos h]
    exact congrArg some (set_str c j 9)
  · rw [if_neg (mt hzero.mp h), if_neg h, hnext h, set_str]

/-- The strings of the combinations. -/
def combinations : Finset (List UInt8) := Finset.univ.image Code.str

/-- A combination's string is among them. -/
theorem str_mem (c : Code) : c.str ∈ combinations :=
  Finset.mem_image_of_mem _ (Finset.mem_univ c)

/-- `"0000"` is the string of a combination. -/
theorem str_zero : Code.zero.str = zero := by
  decide

/-- There are at most ten thousand. -/
theorem card_combinations : combinations.card ≤ 10000 := by
  have hinj : Function.Injective fun c : Code => (⟨c.value, c.value_lt⟩ : Fin 10000) :=
    fun c c' h => Code.value_injective (congrArg Fin.val h)
  have hcard := Fintype.card_le_of_injective _ hinj
  rw [Fintype.card_fin] at hcard
  exact Finset.card_image_le.trans hcard

/-- A digit is determined by its character. -/
theorem digit_injective : Function.Injective digit := by
  decide

/-- A combination is determined by its string. -/
def strEmbedding : Code ↪ List UInt8 where
  toFun := Code.str
  inj' := by
    rintro ⟨s⟩ ⟨t⟩ h
    congr
    funext j
    have hj := getElem?_str ⟨s⟩ j
    rw [h, getElem?_str] at hj
    exact (digit_injective (Option.some.inj hj)).symm

/-! ## The search -/

/-- The strings that the search goes on to from a string. -/
def nextStrings (deadends : List (List UInt8)) (cur : List UInt8) : List (List UInt8) :=
  if cur ∈ deadends then []
  else (List.range 4).flatMap fun j => (plusOne cur j).toList ++ (minusOne cur j).toList

/-- A string that the search goes on to is one turn away. -/
theorem mem_nextStrings {deadends : List (List UInt8)} {s s' : List UInt8} :
    s' ∈ nextStrings deadends s ↔
      s ∉ deadends ∧ ∃ j < 4, plusOne s j = some s' ∨ minusOne s j = some s' := by
  unfold nextStrings
  split_ifs with h
  · exact ⟨fun hs => absurd hs List.not_mem_nil, fun hs => absurd h hs.1⟩
  · simp [h]

/-- The paths of turns are the steps of the search. -/
theorem path_iff_steps {deadends : List (List UInt8)} {k : ℕ} {s : List UInt8} :
    Path deadends k s ↔ Steps (nextStrings deadends) zero k s := by
  constructor
  · intro h
    induction h with
    | start => exact .start
    | turn _ hdead hj hturn ih => exact .step ih (mem_nextStrings.mpr ⟨hdead, _, hj, hturn⟩)
  · intro h
    induction h with
    | start => exact .start
    | step _ hb ih =>
      obtain ⟨hdead, j, hj, hturn⟩ := mem_nextStrings.mp hb
      exact .turn ih hdead hj hturn

/-- From a combination, the search goes on to those that it goes on to in
`CxxPandora.Labuladong.OpenLock`. -/
theorem nextStrings_str (deadends : List (List UInt8)) (c : Code) :
    nextStrings deadends c.str = (nextCodes deadends c).map Code.str := by
  unfold nextStrings nextCodes
  split_ifs with h
  · rfl
  · rw [← List.map_coe_finRange_eq_range, List.flatMap_map, List.map_flatMap]
    refine List.flatMap_congr fun j _ => ?_
    rw [plusOne_str, minusOne_str]
    rfl

/-- The search stays among the combinations. -/
theorem nextStrings_subset {deadends : List (List UInt8)} {cur s : List UInt8}
    (hcur : cur ∈ combinations) (hs : s ∈ nextStrings deadends cur) : s ∈ combinations := by
  obtain ⟨c, -, rfl⟩ := Finset.mem_image.mp hcur
  rw [nextStrings_str] at hs
  obtain ⟨c', -, rfl⟩ := List.mem_map.mp hs
  exact str_mem c'

/-- Expanding a combination is defined, and visits the strings one turn away. -/
theorem expand_eq (deadends : List (List UInt8)) (w : Worklist (List UInt8))
    {cur : List UInt8} (hcur : cur ∈ combinations) :
    expand deadends w cur = some (w.visitAll (nextStrings deadends cur)) := by
  obtain ⟨c, -, rfl⟩ := Finset.mem_image.mp hcur
  unfold expand nextStrings
  split_ifs with h
  · rfl
  · rw [← List.map_coe_finRange_eq_range, List.flatMap_map]
    -- The four wheels, as a list that is not evaluated.
    generalize List.finRange 4 = js
    induction js generalizing w with
    | nil => rfl
    | cons j js ih =>
      rw [List.map_cons, List.foldlM_cons, List.flatMap_cons, plusOne_str, minusOne_str,
        Worklist.visitAll, List.foldl_append]
      exact ih ((w.visit _).visit _)

/-- What is returned for a target: its least distance, or -1 if there is no path. -/
def Shortest (deadends : List (List UInt8)) (target : List UInt8) (v : ℤ) : Prop :=
  (∃ k : ℕ, v = k ∧ IsLeast {k | Path deadends k target} k) ∨
    v = -1 ∧ ∀ k, ¬ Path deadends k target

/-- It is determined by the target. -/
theorem Shortest.unique {deadends : List (List UInt8)} {target : List UInt8} {v v' : ℤ}
    (h : Shortest deadends target v) (h' : Shortest deadends target v') : v = v' := by
  rcases h with ⟨k, rfl, hk⟩ | ⟨rfl, hnone⟩
  · rcases h' with ⟨k', rfl, hk'⟩ | ⟨-, hnone⟩
    · rw [hk.unique hk']
    · exact absurd hk.1 (hnone k)
  · rcases h' with ⟨k', -, hk'⟩ | ⟨rfl, -⟩
    · exact absurd hk'.1 (hnone k')
    · rfl

/-- A level finds the target at its least distance, or looks at all of the level. -/
theorem openLockLevel_spec {deadends : List (List UInt8)} {target : List UInt8} {d sz : ℕ}
    {w : Worklist (List UInt8)} (hw : w.visited ⊆ combinations)
    (h : w.LevelInv (nextStrings deadends) zero target d sz) :
    openLockLevel deadends target sz w = some .found ∧
        IsLeast {k | Steps (nextStrings deadends) zero k target} d ∨
      ∃ w', openLockLevel deadends target sz w = some (.done w') ∧
        w'.visited ⊆ combinations ∧ w'.LevelInv (nextStrings deadends) zero target d 0 ∧
        w'.weightIn combinations + sz ≤ w.weightIn combinations := by
  induction sz generalizing w with
  | zero => exact Or.inr ⟨w, rfl, hw, h, (Nat.add_zero _).le⟩
  | succ sz ih =>
    obtain ⟨visited, queue⟩ := w
    replace hw : visited ⊆ combinations := hw
    cases queue with
    | nil => exact absurd h.le (Nat.not_succ_le_zero sz)
    | cons cur rest =>
      simp only [openLockLevel]
      split_ifs with htarget
      · rw [htarget] at h ⊢
        exact Or.inl ⟨rfl, h.isLeast⟩
      · have hcur : cur ∈ combinations :=
          hw (h.seen d le_rfl cur (h.front cur List.mem_cons_self))
        have hnext : ∀ s ∈ nextStrings deadends cur, s ∈ combinations := fun s hs =>
          nextStrings_subset hcur hs
        have hlt := Worklist.weightIn_pop_lt cur rest hw hnext
        rw [expand_eq deadends _ hcur, Option.bind_some]
        rcases ih (Worklist.visited_visitAll_subset hw hnext) (h.pop (Ne.symm htarget)) with
          hfound | ⟨w', hdone, hw', h', hle⟩
        · exact Or.inl hfound
        · exact Or.inr ⟨w', hdone, hw', h', by omega⟩

/-- The outer loop, from a level on, with enough fuel. -/
theorem openLockLoop_spec {deadends : List (List UInt8)} {target : List UInt8} {fuel d : ℕ}
    {w : Worklist (List UInt8)} (hw : w.visited ⊆ combinations)
    (h : w.LevelInv (nextStrings deadends) zero target d w.queue.length)
    (hfuel : w.weightIn combinations < fuel) (hd : d + w.weightIn combinations < 2^31 - 1) :
    ∃ v, openLockLoop deadends target fuel w d = some v ∧ Shortest deadends target v := by
  induction fuel generalizing w d with
  | zero => exact absurd hfuel (Nat.not_lt_zero _)
  | succ fuel ih =>
    rw [openLockLoop]
    split_ifs with hempty
    · refine ⟨-1, rfl, Or.inr ⟨rfl, fun k hk => ?_⟩⟩
      rw [hempty] at h
      exact h.not_steps hempty k (path_iff_steps.mp hk)
    · have hpos : 0 < w.queue.length := List.length_pos_iff.mpr hempty
      rcases openLockLevel_spec hw h with ⟨hfound, hleast⟩ | ⟨w', hdone, hw', h', hle⟩
      · rw [hfound]
        refine ⟨d, rfl, Or.inl ⟨d, rfl, ?_⟩⟩
        simp only [path_iff_steps]
        exact hleast
      · -- The number of steps stays below the weight that the search began with.
        have hstep : checkInt ((d : ℤ) + 1) = some ((d + 1 : ℕ) : ℤ) := checkInt_succ (by omega)
        rw [hdone, Option.bind_some]
        simp only [hstep, Option.bind_some]
        exact ih hw' h'.next_level (by omega) (by omega)

/-- `openLock` ends for every string as the target, and returns the least number of turns of a path
to it, or -1 if there is none. -/
theorem openLock_shortest (deadends : List (List UInt8)) (target : List UInt8) :
    ∃ (n₀ : ℕ) (v : ℤ), Shortest deadends target v ∧
      ∀ fuel, n₀ ≤ fuel → openLock fuel deadends target = some v := by
  have hw : ({zero} : Finset (List UInt8)) ⊆ combinations :=
    Finset.singleton_subset_iff.mpr (str_zero ▸ str_mem .zero)
  have hinv : Worklist.LevelInv (nextStrings deadends) zero target 0 1 ⟨{zero}, [zero]⟩ :=
    Worklist.LevelInv.init _ _ _
  have hweight := Worklist.weightIn_init_le zero card_combinations
  have hspec : ∀ fuel, 20002 ≤ fuel →
      ∃ v, openLock fuel deadends target = some v ∧ Shortest deadends target v := by
    intro fuel hfuel
    exact openLockLoop_spec (w := ⟨{zero}, [zero]⟩) (d := 0) hw hinv (by omega) (by omega)
  obtain ⟨v, -, hv⟩ := hspec 20002 le_rfl
  refine ⟨20002, v, hv, fun fuel hfuel => ?_⟩
  obtain ⟨v', hrun, hv'⟩ := hspec fuel hfuel
  rw [hrun, hv'.unique hv]

/-! ## Four digits as the target -/

/-- Expanding a combination, on strings. -/
theorem expand_map (deadends : List (List UInt8)) (w : Worklist Code) (cur : Code) :
    expand deadends (w.map strEmbedding) cur.str =
      some ((OpenLock.expand deadends w cur).map strEmbedding) := by
  rw [expand_eq deadends _ (str_mem cur), nextStrings_str, OpenLock.expand_eq,
    Worklist.map_visitAll]
  rfl

/-- A level of the search for a combination, on strings. -/
theorem openLockLevel_map (deadends : List (List UInt8)) (target : Code) (sz : ℕ)
    (w : Worklist Code) :
    openLockLevel deadends target.str sz (w.map strEmbedding) =
      (OpenLock.openLockLevel deadends target sz w).map fun
        | .found => .found
        | .done w' => .done (w'.map strEmbedding) := by
  induction sz generalizing w with
  | zero => rfl
  | succ sz ih =>
    obtain ⟨visited, queue⟩ := w
    cases queue with
    | nil => rfl
    | cons cur rest =>
      have hexpand := expand_map deadends ⟨visited, rest⟩ cur
      have htarget : target.str = cur.str ↔ target = cur := strEmbedding.injective.eq_iff
      have hstrings : openLockLevel deadends target.str (sz + 1)
            (Worklist.map strEmbedding ⟨visited, cur :: rest⟩) =
          if target.str = cur.str then some .found
          else (expand deadends (Worklist.map strEmbedding ⟨visited, rest⟩) cur.str).bind
            (openLockLevel deadends target.str sz) := rfl
      simp only [hstrings, OpenLock.openLockLevel, hexpand, Option.bind_some, ih]
      by_cases h : target = cur
      · rw [if_pos h, if_pos (htarget.mpr h)]
        rfl
      · rw [if_neg h, if_neg (mt htarget.mp h)]

/-- The outer loop of the search for a combination, on strings. -/
theorem openLockLoop_map {deadends : List (List UInt8)} {target : Code} {fuel d : ℕ}
    {w : Worklist Code} (hfuel : w.weight < fuel) (hd : d + w.weight < 2^31 - 1) :
    openLockLoop deadends target.str fuel (w.map strEmbedding) d =
      OpenLock.openLockLoop deadends target w d := by
  induction fuel generalizing w d with
  | zero => exact absurd hfuel (Nat.not_lt_zero _)
  | succ fuel ih =>
    have hlen : (w.map strEmbedding).queue.length = w.queue.length := List.length_map _
    have hempty : (w.map strEmbedding).queue = [] ↔ w.queue = [] := List.map_eq_nil_iff
    rw [openLockLoop, OpenLock.openLockLoop, hlen, openLockLevel_map]
    by_cases hq : w.queue = []
    · rw [if_pos (hempty.mpr hq), dif_pos hq]
    · rw [if_neg (mt hempty.mp hq), dif_neg hq]
      split
      · rename_i hl
        rw [hl]
        rfl
      · rename_i hl
        rw [hl]
        rfl
      · rename_i w' hl
        have hlt := (weight_openLockLevel hl).2 (List.length_pos_iff.mpr hq)
        have hstep : checkInt ((d : ℤ) + 1) = some ((d + 1 : ℕ) : ℤ) := checkInt_succ (by omega)
        rw [hl, Option.map_some, Option.bind_some]
        simp only [hstep, Option.bind_some]
        rw [ih (by omega) (by omega), Int.natCast_add, Int.natCast_one]

/-- For a target of four digits, the search on strings is the search on combinations. -/
theorem openLock_str (deadends : List (List UInt8)) (target : Code) :
    ∃ n₀, ∀ fuel, n₀ ≤ fuel →
      openLock fuel deadends target.str = OpenLock.openLock deadends target := by
  have hcard : (Finset.univ : Finset Code).card ≤ 10000 := by
    have hcard := Finset.card_image_of_injective Finset.univ strEmbedding.injective
    exact hcard.symm.le.trans card_combinations
  have hweight := Worklist.weightIn_init_le Code.zero hcard
  rw [← Worklist.weight_eq] at hweight
  refine ⟨20002, fun fuel hfuel => ?_⟩
  have hzero : (⟨{zero}, [zero]⟩ : Worklist (List UInt8)) =
      Worklist.map strEmbedding ⟨{.zero}, [.zero]⟩ := by
    rw [Worklist.map, Finset.map_singleton, ← str_zero]
    rfl
  rw [openLock, hzero]
  refine openLockLoop_map (w := ⟨{.zero}, [.zero]⟩) (d := 0) ?_ ?_
  · exact Nat.lt_of_le_of_lt hweight hfuel
  · omega

end CxxPandora.Labuladong.OpenLock.Strings
