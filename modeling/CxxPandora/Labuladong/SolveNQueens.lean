import CxxPandora.Lib.Backtracking
import CxxPandora.Lib.Words
import Mathlib.Data.Fintype.Card

/-!
# The queens of `solveNQueens`

`backtrack` and `isValid` of `algorithms/labuladong/dfs/bt_solve_n_queens.cpp`. The queens are put
on one board, row by row, and taken off after the recursion. A board on which the first rows have a
queen each is known by the columns of these (`boardOf`), and the search over boards is a search over
columns (`backtrack_eq`). `backtrack_places` shows that it finds each placement of `n` queens of
which none attacks another one exactly once.
-/

namespace CxxPandora.Labuladong.SolveNQueens

open Lib

/-- A board: its rows, of `'.'` and `'Q'`. -/
abbrev Board := List (List Char)

/-- The square `board[row][col]`; `none` when it is not on the board. -/
def square (board : Board) (row col : ℕ) : Option Char := board[row]?.bind fun r => r[col]?

/-- `board[row][col] = c`; `none` when the square is not on the board. -/
def setSquare (board : Board) (row col : ℕ) (c : Char) : Option Board :=
  board[row]?.bind fun line =>
    if col < line.length then some (board.set row (line.set col c)) else none

/-- The first loop of `isValid`, over the rows given: whether the column has no queen. -/
def columnValid (board : Board) (col : ℕ) : List ℕ → Option Bool
  | [] => some true
  | i :: rows =>
    (square board i col).bind fun c => if c = 'Q' then some false else columnValid board col rows

/-- The second loop of `isValid`, up and to the right, from the row above the first argument. -/
def rightValid (board : Board) (n : ℕ) : ℕ → ℕ → Option Bool
  | i + 1, j =>
    if j < n then
      (square board i j).bind fun c => if c = 'Q' then some false else rightValid board n i (j + 1)
    else some true
  | 0, _ => some true

/-- The third loop of `isValid`, up and to the left, from the row above the first argument and the
column before the second one. -/
def leftValid (board : Board) : ℕ → ℕ → Option Bool
  | i + 1, j + 1 =>
    (square board i j).bind fun c => if c = 'Q' then some false else leftValid board i j
  | _, _ => some true

/-- `isValid`; `none` when it reads outside of the board. -/
def isValid (board : Board) (row col : ℕ) : Option Bool :=
  board[row]?.bind fun line =>
    let n := (toInt line.length).toNat
    (columnValid board col (List.range n)).bind fun column =>
      if column then
        (rightValid board n row (col + 1)).bind fun right =>
          if right then leftValid board row col else some false
      else some false

/-- `backtrack`: the board, and the results; `none` when it is undefined or the recursion is deeper
than the fuel. The columns are counted up to an `int`. -/
def backtrack : ℕ → Board → ℕ → List Board → Option (Board × List Board)
  | 0, _, _, _ => none
  | fuel + 1, board, row, results =>
    if row = board.length then some (board, results ++ [board])
    else
      board[row]?.bind fun line =>
        (List.range (toInt line.length).toNat).foldlM (fun (board, results) col =>
          (isValid board row col).bind fun valid =>
            if valid then
              (setSquare board row col 'Q').bind fun board =>
                (checkInt ((row : ℤ) + 1)).bind fun _ =>
                  (backtrack fuel board (row + 1) results).bind fun (board, results) =>
                    (setSquare board row col '.').map fun board => (board, results)
            else some (board, results)) (board, results)

/-- The empty board that `solveNQueens` starts with. -/
def emptyBoard (n : ℕ) : Board := List.replicate n (List.replicate n '.')

/-! ## Placements -/

/-- Two queens attack each other in a row, a column, or a diagonal. -/
def Attacks {n : ℕ} (p q : Fin n × Fin n) : Prop :=
  p.1 = q.1 ∨ p.2 = q.2 ∨ (p.1 : ℕ) + p.2 = q.1 + q.2 ∨ (p.1 : ℕ) + q.2 = q.1 + p.2

/-- A placement of `n` queens of which none attacks another one. -/
structure Placement (n : ℕ) where
  /-- The squares with a queen. -/
  squares : Finset (Fin n × Fin n)
  /-- There are `n` of them. -/
  card_squares : squares.card = n
  /-- None attacks another one. -/
  safe : ∀ p ∈ squares, ∀ q ∈ squares, p ≠ q → ¬ Attacks p q

/-- The board of a placement. -/
def Placement.board {n : ℕ} (p : Placement n) : Board :=
  List.ofFn fun i => List.ofFn fun j => if (i, j) ∈ p.squares then 'Q' else '.'

/-! ## Boards of columns -/

/-- A row with a queen in the column given, or none. -/
def lineOf (n : ℕ) (queen : Option ℕ) : List Char :=
  (List.range n).map fun j => if queen = some j then 'Q' else '.'

/-- The board with a queen in each of the first rows, in the columns given. -/
def boardOf (n : ℕ) (cols : List ℕ) : Board := (List.range n).map fun i => lineOf n cols[i]?

/-- A queen in the next row is not attacked. -/
def Safe (cols : List ℕ) (c : ℕ) : Prop :=
  ∀ i (_ : i < cols.length),
    cols[i] ≠ c ∧ cols[i] + i ≠ c + cols.length ∧ cols[i] + cols.length ≠ c + i

/-- It can be decided whether a queen is attacked. -/
instance (cols : List ℕ) (c : ℕ) : Decidable (Safe cols c) :=
  inferInstanceAs (Decidable (∀ i (_ : i < cols.length), _))

/-- The columns in which a queen can be put in the next row. -/
def safeColumns (n : ℕ) (cols : List ℕ) : List ℕ := (List.range n).filter fun c => Safe cols c

variable {n i j c : ℕ} {cols : List ℕ}

/-- The board before the first queen is empty. -/
theorem boardOf_nil (n : ℕ) : boardOf n [] = emptyBoard n := by
  have hline : lineOf n none = List.replicate n '.' := by
    simp [lineOf]
  simp [boardOf, emptyBoard, hline]

/-- A row of the board. -/
theorem getElem?_boardOf (cols : List ℕ) (hi : i < n) :
    (boardOf n cols)[i]? = some (lineOf n cols[i]?) := by
  rw [boardOf, List.getElem?_map, List.getElem?_range hi, Option.map_some]

/-- A square of the board. -/
theorem square_boardOf (cols : List ℕ) (hi : i < n) (hj : j < n) :
    square (boardOf n cols) i j = some (if cols[i]? = some j then 'Q' else '.') := by
  rw [square, getElem?_boardOf cols hi, Option.bind_some, lineOf, List.getElem?_map,
    List.getElem?_range hj, Option.map_some]

/-- An element is set by updating the function that the elements are the values of. -/
theorem set_map_range {α : Type*} (f : ℕ → α) (a : α) (i : ℕ) :
    ((List.range n).map f).set i a = (List.range n).map (Function.update f i a) := by
  refine List.ext_getElem? fun k => ?_
  by_cases hk : k < n
  · rw [List.getElem?_map, List.getElem?_range hk, Option.map_some]
    rcases eq_or_ne i k with rfl | hne
    · rw [List.getElem?_set_self (by simpa using hk), Function.update_self]
    · rw [List.getElem?_set_ne hne, List.getElem?_map, List.getElem?_range hk, Option.map_some,
        Function.update_of_ne hne.symm]
  · rw [List.getElem?_eq_none (by simpa using hk), List.getElem?_eq_none (by simpa using hk)]

/-- A queen is put on a row, or taken off. -/
theorem set_lineOf {queen queen' : Option ℕ} {ch : Char}
    (h : ∀ j, (if queen' = some j then 'Q' else '.') =
      if j = c then ch else if queen = some j then 'Q' else '.') :
    (lineOf n queen).set c ch = lineOf n queen' := by
  rw [lineOf, set_map_range, lineOf]
  refine List.map_congr_left fun j _ => ?_
  rw [h j, Function.update_apply]

/-- What a change of the next row does to the board. -/
theorem setSquare_boardOf {cols' : List ℕ} {ch : Char} (hi : i < n) (hc : c < n)
    (hline : (lineOf n cols[i]?).set c ch = lineOf n cols'[i]?)
    (hrest : ∀ k, k ≠ i → cols[k]? = cols'[k]?) :
    setSquare (boardOf n cols) i c ch = some (boardOf n cols') := by
  have hlen : c < (lineOf n cols[i]?).length := by simpa [lineOf] using hc
  rw [setSquare, getElem?_boardOf cols hi, Option.bind_some, if_pos hlen, hline, boardOf,
    set_map_range, boardOf]
  refine congrArg some (List.map_congr_left fun k _ => ?_)
  rcases eq_or_ne k i with rfl | hne
  · rw [Function.update_self]
  · rw [Function.update_of_ne hne, hrest k hne]

/-- The rows but the next one do not change when a queen is put on it. -/
theorem getElem?_concat_of_ne (c : ℕ) (h : i ≠ cols.length) : (cols ++ [c])[i]? = cols[i]? := by
  rcases Nat.lt_or_gt_of_ne h with hlt | hgt
  · exact List.getElem?_append_left hlt
  · rw [List.getElem?_eq_none hgt.le, List.getElem?_eq_none]
    rw [List.length_append, List.length_singleton]
    exact hgt

/-- A queen is put on the next row. -/
theorem setSquare_queen (hlen : cols.length < n) (hc : c < n) :
    setSquare (boardOf n cols) cols.length c 'Q' = some (boardOf n (cols ++ [c])) := by
  refine setSquare_boardOf hlen hc (set_lineOf fun j => ?_)
    fun k hk => (getElem?_concat_of_ne c hk).symm
  rw [List.getElem?_concat_length, List.getElem?_eq_none le_rfl]
  simp [eq_comm]

/-- The queen is taken off again. -/
theorem setSquare_dot (hlen : cols.length < n) (hc : c < n) :
    setSquare (boardOf n (cols ++ [c])) cols.length c '.' = some (boardOf n cols) := by
  refine setSquare_boardOf hlen hc (set_lineOf fun j => ?_)
    fun k hk => getElem?_concat_of_ne c hk
  rw [List.getElem?_concat_length, List.getElem?_eq_none le_rfl]
  rcases eq_or_ne j c with rfl | hne
  · simp
  · simp [hne, hne.symm]

/-! ## `isValid` -/

variable (cols) in
/-- The first loop looks for a queen in the column. -/
theorem columnValid_boardOf (hc : c < n) {rows : List ℕ} (hrows : ∀ i ∈ rows, i < n) :
    ∃ b, columnValid (boardOf n cols) c rows = some b ∧
      (b = true ↔ ∀ i ∈ rows, cols[i]? ≠ some c) := by
  induction rows with
  | nil => exact ⟨true, rfl, iff_of_true rfl fun i hi => absurd hi List.not_mem_nil⟩
  | cons i rows ih =>
    obtain ⟨b, hb, hiff⟩ := ih fun k hk => hrows k (List.mem_cons_of_mem i hk)
    rw [columnValid, square_boardOf cols (hrows i List.mem_cons_self) hc, Option.bind_some, hb]
    simp only [List.forall_mem_cons]
    by_cases hqueen : cols[i]? = some c
    · exact ⟨false, by simp [hqueen], by simp [hqueen]⟩
    · exact ⟨b, by simp [hqueen], by simp [hqueen, hiff]⟩

/-- The second loop looks for a queen on the diagonal up and to the right. -/
theorem rightValid_boardOf (hcols : ∀ d ∈ cols, d < n) (hi : i ≤ n) :
    ∃ b, rightValid (boardOf n cols) n i j = some b ∧
      (b = true ↔ ∀ k < i, ∀ d, cols[k]? = some d → d + k + 1 ≠ j + i) := by
  induction i generalizing j with
  | zero => exact ⟨true, rfl, iff_of_true rfl fun k hk => absurd hk (Nat.not_lt_zero k)⟩
  | succ i ih =>
    rw [rightValid]
    by_cases hj : j < n
    · obtain ⟨b, hb, hiff⟩ := ih (j := j + 1) (by omega)
      have hsum : j + (i + 1) = j + 1 + i := by omega
      rw [if_pos hj, square_boardOf cols (by omega) hj, Option.bind_some, hb, hsum]
      simp only [Nat.forall_lt_succ_right]
      by_cases hqueen : cols[i]? = some j
      · exact ⟨false, by simp [hqueen],
          iff_of_false Bool.false_ne_true fun h => h.2 j hqueen (by omega)⟩
      · refine ⟨b, by simp [hqueen], ?_⟩
        rw [hiff, iff_self_and]
        intro _ d hd heq
        obtain rfl : d = j := by omega
        exact hqueen hd
    · -- The diagonal has left the board.
      rw [if_neg hj]
      refine ⟨true, rfl, iff_of_true rfl fun k hk d hd => ?_⟩
      have hd := hcols d (List.mem_of_getElem? hd)
      omega

variable (cols) in
/-- The third loop looks for a queen on the diagonal up and to the left. -/
theorem leftValid_boardOf (hi : i ≤ n) (hj : j ≤ n) :
    ∃ b, leftValid (boardOf n cols) i j = some b ∧
      (b = true ↔ ∀ k < i, ∀ d, cols[k]? = some d → d + i ≠ j + k) := by
  induction i generalizing j with
  | zero =>
    refine ⟨true, ?_, iff_of_true rfl fun k hk => absurd hk (Nat.not_lt_zero k)⟩
    rw [leftValid]
    exact fun i j h => absurd h.symm (Nat.succ_ne_zero i)
  | succ i ih =>
    cases j with
    | zero =>
      refine ⟨true, rfl, iff_of_true rfl fun k hk d _ => ?_⟩
      omega
    | succ j =>
      obtain ⟨b, hb, hiff⟩ := ih (j := j) (by omega) (by omega)
      have hshift (d k : ℕ) : d + (i + 1) ≠ j + 1 + k ↔ d + i ≠ j + k := by omega
      rw [leftValid, square_boardOf cols (by omega) (by omega), Option.bind_some, hb]
      simp only [hshift, Nat.forall_lt_succ_right]
      by_cases hqueen : cols[i]? = some j
      · exact ⟨false, by simp [hqueen],
          iff_of_false Bool.false_ne_true fun h => h.2 j hqueen rfl⟩
      · refine ⟨b, by simp [hqueen], ?_⟩
        rw [hiff, iff_self_and]
        intro _ d hd heq
        obtain rfl : d = j := by omega
        exact hqueen hd

/-- The rows are counted up to an `int`. -/
theorem toInt_length_lineOf (hn : n < 2^31) (queen : Option ℕ) :
    (toInt (lineOf n queen).length).toNat = n := by
  rw [lineOf, List.length_map, List.length_range,
    toInt_of_nonneg (by omega) (by unfold intMax; omega), Int.toNat_natCast]

/-- A queen is safe when no earlier one is in its column, nor on a diagonal up from it. -/
theorem safe_iff (hlen : cols.length < n) :
    Safe cols c ↔ (∀ i ∈ List.range n, cols[i]? ≠ some c) ∧
      (∀ k < cols.length, ∀ d, cols[k]? = some d → d + k + 1 ≠ c + 1 + cols.length) ∧
        ∀ k < cols.length, ∀ d, cols[k]? = some d → d + cols.length ≠ c + k := by
  constructor
  · intro h
    refine ⟨fun i _ hqueen => ?_, fun k hk d hd => ?_, fun k hk d hd => ?_⟩
    · obtain ⟨hi, heq⟩ := List.getElem?_eq_some_iff.mp hqueen
      exact (h i hi).1 heq
    · obtain ⟨hk, rfl⟩ := List.getElem?_eq_some_iff.mp hd
      have hdiagonal := (h k hk).2.1
      omega
    · obtain ⟨hk, rfl⟩ := List.getElem?_eq_some_iff.mp hd
      exact (h k hk).2.2
  · rintro ⟨hcolumn, hright, hleft⟩ i hi
    have hd := List.getElem?_eq_getElem hi
    have hne := hcolumn i (List.mem_range.mpr (hi.trans hlen))
    have hdiagonal := hright i hi _ hd
    exact ⟨fun heq => hne (heq ▸ hd), by omega, hleft i hi _ hd⟩

/-- `isValid` decides whether a queen in the next row is attacked. -/
theorem isValid_boardOf (hn : n < 2^31) (hcols : ∀ d ∈ cols, d < n) (hlen : cols.length < n)
    (hc : c < n) : isValid (boardOf n cols) cols.length c = some (decide (Safe cols c)) := by
  have hrows : ∀ i ∈ List.range n, i < n := fun i hi => List.mem_range.mp hi
  obtain ⟨column, hcolumn, hcolumn'⟩ := columnValid_boardOf cols hc hrows
  obtain ⟨right, hright, hright'⟩ := rightValid_boardOf (j := c + 1) hcols hlen.le
  obtain ⟨left, hleft, hleft'⟩ := leftValid_boardOf cols hlen.le hc.le
  have hiff : (column && (right && left)) = true ↔ Safe cols c := by
    rw [Bool.and_eq_true, Bool.and_eq_true, hcolumn', hright', hleft', safe_iff hlen]
  have hbool : (column && (right && left)) = decide (Safe cols c) :=
    Bool.eq_iff_iff.mpr (hiff.trans decide_eq_true_iff.symm)
  rw [isValid, getElem?_boardOf cols hlen, Option.bind_some]
  dsimp only
  rw [toInt_length_lineOf hn, hcolumn, Option.bind_some, hright, Option.bind_some, hleft, ← hbool]
  cases column with
  | false => rfl
  | true => cases right <;> rfl

/-! ## `backtrack` -/

/-- The recursion leaves the board as it is, and appends the boards of the columns that a search
finds. -/
theorem backtrack_eq {fuel : ℕ} (hn : n < 2^31) (hcols : ∀ d ∈ cols, d < n)
    (hlen : cols.length ≤ n) (hfuel : n - cols.length < fuel) (results : List Board) :
    backtrack fuel (boardOf n cols) cols.length results =
      some (boardOf n cols, results ++
        (extensions (safeColumns n) (n - cols.length) cols).map (boardOf n)) := by
  induction fuel generalizing cols results with
  | zero => exact absurd hfuel (Nat.not_lt_zero _)
  | succ fuel ih =>
    have hsize : (boardOf n cols).length = n := by rw [boardOf, List.length_map, List.length_range]
    rw [backtrack, hsize]
    rcases hlen.eq_or_lt with heq | hlt
    · rw [if_pos heq, heq, Nat.sub_self, extensions, List.map_singleton]
    · obtain ⟨k, hk⟩ : ∃ k, n - cols.length = k + 1 := Nat.exists_eq_add_one.mpr (by omega)
      rw [if_neg hlt.ne, getElem?_boardOf cols hlt, Option.bind_some, toInt_length_lineOf hn, hk,
        extensions, safeColumns, List.map_flatMap]
      refine foldlM_collect (fun found => (boardOf n cols, found)) ?_ ?_ results
      · intro c hc hsafe found
        dsimp only
        rw [isValid_boardOf hn hcols hlt (List.mem_range.mp hc), Option.bind_some, hsafe]
        rfl
      · intro c hc hsafe found
        have hc := List.mem_range.mp hc
        have hlen' : (cols ++ [c]).length = cols.length + 1 := by
          rw [List.length_append, List.length_singleton]
        have hcols' : ∀ d ∈ cols ++ [c], d < n := by
          intro d hd
          rcases List.mem_append.mp hd with hd | hd
          · exact hcols d hd
          · exact List.mem_singleton.mp hd ▸ hc
        have hrec := ih hcols' (by omega) (by omega) found
        rw [hlen', show n - (cols.length + 1) = k by omega] at hrec
        dsimp only
        rw [isValid_boardOf hn hcols hlt hc, Option.bind_some, if_pos hsafe,
          setSquare_queen hlt hc, Option.bind_some, checkInt_succ (by omega), Option.bind_some,
          hrec, Option.bind_some, setSquare_dot hlt hc, Option.map_some]

/-! ## Placements and columns -/

/-- A placement has one queen in each row. -/
theorem Placement.exists_columns (p : Placement n) :
    ∃ q : Fin n → Fin n, ∀ i j, (i, j) ∈ p.squares ↔ q i = j := by
  have hinj : Set.InjOn Prod.fst (p.squares : Set (Fin n × Fin n)) := by
    intro s hs s' hs' heq
    by_contra hne
    exact p.safe s hs s' hs' hne (Or.inl heq)
  have huniv : p.squares.image Prod.fst = Finset.univ := by
    rw [← Finset.card_eq_iff_eq_univ, Finset.card_image_of_injOn hinj, p.card_squares,
      Fintype.card_fin]
  have hrow : ∀ i, ∃ j, (i, j) ∈ p.squares := by
    intro i
    obtain ⟨s, hs, rfl⟩ := Finset.mem_image.mp (huniv ▸ Finset.mem_univ i)
    exact ⟨s.2, hs⟩
  choose q hq using hrow
  refine ⟨q, fun i j => ⟨fun hij => ?_, fun heq => heq ▸ hq i⟩⟩
  exact congrArg Prod.snd (hinj (hq i) hij rfl)

/-- No two queens in these columns of the rows attack each other. -/
def NonAttacking (q : Fin n → Fin n) : Prop := ∀ i k, i ≠ k → ¬ Attacks (i, q i) (k, q k)

/-- The placement of queens in these columns of the rows. -/
def Placement.ofColumns (q : Fin n → Fin n) (h : NonAttacking q) : Placement n where
  squares := Finset.univ.map ⟨fun i => (i, q i), fun _ _ heq => congrArg Prod.fst heq⟩
  card_squares := by rw [Finset.card_map, Finset.card_univ, Fintype.card_fin]
  safe := by
    intro s hs s' hs' hne
    obtain ⟨i, -, rfl⟩ := Finset.mem_map.mp hs
    obtain ⟨k, -, rfl⟩ := Finset.mem_map.mp hs'
    exact h i k fun heq => hne (by rw [heq])

/-- The squares of the placement. -/
theorem Placement.mem_ofColumns (q : Fin n → Fin n) (h : NonAttacking q) (i j : Fin n) :
    (i, j) ∈ (Placement.ofColumns q h).squares ↔ q i = j := by
  rw [ofColumns, Finset.mem_map]
  constructor
  · rintro ⟨a, -, heq⟩
    obtain ⟨rfl, rfl⟩ := Prod.mk.inj heq
    rfl
  · rintro rfl
    exact ⟨i, Finset.mem_univ i, rfl⟩

/-- The board of queens in these columns of the rows. -/
theorem Placement.board_eq {p : Placement n} {q : Fin n → Fin n}
    (h : ∀ i j, (i, j) ∈ p.squares ↔ q i = j) :
    p.board = boardOf n (List.ofFn fun i => (q i : ℕ)) := by
  refine List.ext_getElem? fun i => ?_
  by_cases hi : i < n
  · rw [getElem?_boardOf _ hi, Placement.board, List.getElem?_ofFn, dif_pos hi]
    refine congrArg some (List.ext_getElem? fun j => ?_)
    by_cases hj : j < n
    · rw [lineOf, List.getElem?_map, List.getElem?_range hj, List.getElem?_ofFn, dif_pos hj,
        List.getElem?_ofFn, dif_pos hi, Option.map_some]
      simp [h, Fin.ext_iff]
    · rw [List.getElem?_eq_none (by simpa using hj), List.getElem?_eq_none]
      simpa [lineOf] using hj
  · rw [List.getElem?_eq_none (by simpa [Placement.board] using hi), List.getElem?_eq_none]
    simpa [boardOf] using hi

/-- Two placements have different boards. -/
theorem Placement.board_injective : Function.Injective (Placement.board (n := n)) := by
  intro p p' heq
  have hsquares : p.squares = p'.squares := by
    ext ⟨i, j⟩
    have hchar := congrFun (List.ofFn_injective (congrFun (List.ofFn_injective heq) i)) j
    by_cases hp : (i, j) ∈ p.squares <;> by_cases hp' : (i, j) ∈ p'.squares <;> simp_all
  cases p
  cases p'
  congr

/-- When a queen attacks another one, that one attacks it. -/
theorem Attacks.symm {s t : Fin n × Fin n} (h : Attacks s t) : Attacks t s := by
  rcases h with heq | heq | heq | heq
  · exact Or.inl heq.symm
  · exact Or.inr (Or.inl heq.symm)
  · exact Or.inr (Or.inr (Or.inl heq.symm))
  · exact Or.inr (Or.inr (Or.inr heq.symm))

/-- A column is safe after the earlier ones when no earlier queen attacks it. -/
theorem mem_safeColumns_take (q : Fin n → Fin n) (i : Fin n) :
    (q i : ℕ) ∈ safeColumns n ((List.ofFn fun i => (q i : ℕ)).take i) ↔
      ∀ k : Fin n, k < i → ¬ Attacks (k, q k) (i, q i) := by
  have hlen : ((List.ofFn fun i => (q i : ℕ)).take i).length = i := by
    rw [List.length_take, List.length_ofFn, min_eq_left i.isLt.le]
  rw [safeColumns, List.mem_filter, List.mem_range, and_iff_right (q i).isLt, decide_eq_true_eq,
    Safe]
  constructor
  · intro h k hki hattacks
    have hk := h k (hlen.symm ▸ hki)
    simp only [List.getElem_take, List.getElem_ofFn, hlen] at hk
    have hk : (q k : ℕ) ≠ q i ∧ (q k : ℕ) + k ≠ q i + i ∧ (q k : ℕ) + i ≠ q i + k := hk
    rcases hattacks with heq | heq | heq | heq
    · exact hki.ne heq
    · exact hk.1 (congrArg Fin.val heq)
    · dsimp only at heq
      omega
    · dsimp only at heq
      omega
  · intro h k hk
    have hki : k < i := hlen ▸ hk
    have hattacks := h ⟨k, hki.trans i.isLt⟩ hki
    simp only [Attacks, not_or, Fin.ext_iff] at hattacks
    simp only [List.getElem_take, List.getElem_ofFn, hlen]
    omega

/-- The search finds the columns of queens that do not attack each other. -/
theorem ofFn_mem_extensions (q : Fin n → Fin n) :
    (List.ofFn fun i => (q i : ℕ)) ∈ extensions (safeColumns n) n [] ↔ NonAttacking q := by
  have hpermitted : (List.ofFn fun i => (q i : ℕ)) ∈ extensions (safeColumns n) n [] ↔
      Permitted (safeColumns n) [] (List.ofFn fun i => (q i : ℕ)) := by
    rw [mem_extensions]
    constructor
    · rintro ⟨rest, -, hrest, heq⟩
      rwa [heq]
    · exact fun h => ⟨_, List.length_ofFn, h, rfl⟩
  rw [hpermitted, permitted_iff_getElem]
  constructor
  · intro h i k hne hattacks
    have hmem (i : Fin n) : (q i : ℕ) ∈ safeColumns n ((List.ofFn fun i => (q i : ℕ)).take i) := by
      have hi := h i (by rw [List.length_ofFn]; exact i.isLt)
      rwa [List.getElem_ofFn, List.nil_append] at hi
    rcases lt_or_gt_of_ne hne with hlt | hgt
    · exact (mem_safeColumns_take q k).mp (hmem k) i hlt hattacks
    · exact (mem_safeColumns_take q i).mp (hmem i) k hgt hattacks.symm
  · intro h i hi
    rw [List.length_ofFn] at hi
    rw [List.getElem_ofFn, List.nil_append]
    exact (mem_safeColumns_take q ⟨i, hi⟩).mpr fun k hki => h k ⟨i, hi⟩ hki.ne

/-- The search finds one column for each row. -/
theorem exists_ofFn_of_mem {cols : List ℕ} (h : cols ∈ extensions (safeColumns n) n []) :
    ∃ q : Fin n → Fin n, cols = List.ofFn fun i => (q i : ℕ) := by
  obtain ⟨_, hlen, hrest, rfl⟩ := mem_extensions.mp h
  have hlt : ∀ i : Fin n, cols[i] < n := by
    intro i
    have hmem := permitted_iff_getElem.mp hrest i (hlen.symm ▸ i.isLt)
    rw [safeColumns, List.mem_filter, List.mem_range] at hmem
    exact hmem.1
  refine ⟨fun i => ⟨cols[i], hlt i⟩, List.ext_getElem ?_ fun i h₁ h₂ => ?_⟩
  · rw [List.length_ofFn, hlen]
  · rw [List.getElem_ofFn]
    rfl

/-- The boards that the search finds are those of the placements. -/
theorem mem_map_boardOf {board : Board} :
    board ∈ (extensions (safeColumns n) n []).map (boardOf n) ↔
      ∃ p : Placement n, p.board = board := by
  rw [List.mem_map]
  constructor
  · rintro ⟨cols, hcols, rfl⟩
    obtain ⟨q, rfl⟩ := exists_ofFn_of_mem hcols
    have hq := (ofFn_mem_extensions q).mp hcols
    exact ⟨.ofColumns q hq, Placement.board_eq (Placement.mem_ofColumns q hq)⟩
  · rintro ⟨p, rfl⟩
    obtain ⟨q, hq⟩ := p.exists_columns
    refine ⟨_, (ofFn_mem_extensions q).mpr fun i k hne => ?_, (Placement.board_eq hq).symm⟩
    exact p.safe _ ((hq i _).mpr rfl) _ ((hq k _).mpr rfl) fun heq => hne (congrArg Prod.fst heq)

/-- The search finds no board twice. -/
theorem nodup_map_boardOf (n : ℕ) :
    ((extensions (safeColumns n) n []).map (boardOf n)).Nodup := by
  refine (nodup_extensions (fun path => List.nodup_range.filter _) _ _).map_on ?_
  intro cols hcols cols' hcols' heq
  obtain ⟨q, rfl⟩ := exists_ofFn_of_mem hcols
  obtain ⟨q', rfl⟩ := exists_ofFn_of_mem hcols'
  have hq := (ofFn_mem_extensions q).mp hcols
  have hq' := (ofFn_mem_extensions q').mp hcols'
  rw [← Placement.board_eq (Placement.mem_ofColumns q hq),
    ← Placement.board_eq (Placement.mem_ofColumns q' hq')] at heq
  have hsame := Placement.board_injective heq
  have hcolumns : q = q' := by
    funext i
    rw [← Placement.mem_ofColumns q hq, hsame, Placement.mem_ofColumns]
  rw [hcolumns]

/-- `backtrack` on the empty board ends, leaves the board empty, and finds the boards of the
placements of `n` queens of which none attacks another one, each placement once. `n` is an `int`. -/
theorem backtrack_places {n : ℕ} (hn : (n : ℤ) ≤ intMax) :
    ∃ results : List Board, results.Nodup ∧
      (∀ board, board ∈ results ↔ ∃! p : Placement n, p.board = board) ∧
      ∃ n₀, ∀ fuel, n₀ ≤ fuel → backtrack fuel (emptyBoard n) 0 [] =
        some (emptyBoard n, results) := by
  have hint : n < 2^31 := by
    unfold intMax at hn
    omega
  have hnone : ∀ d ∈ ([] : List ℕ), d < n := fun d hd => absurd hd List.not_mem_nil
  refine ⟨(extensions (safeColumns n) n []).map (boardOf n), nodup_map_boardOf n, fun board => ?_,
    n + 1, fun fuel hfuel => ?_⟩
  · rw [mem_map_boardOf]
    exact ⟨fun ⟨p, hp⟩ => ⟨p, hp, fun p' hp' => Placement.board_injective (hp'.trans hp.symm)⟩,
      ExistsUnique.exists⟩
  · rw [← boardOf_nil]
    exact backtrack_eq hint hnone (Nat.zero_le n) hfuel []

/-- The placements of eight queens. -/
theorem backtrack_places_eight :
    ∃ results : List Board, results.Nodup ∧
      (∀ board, board ∈ results ↔ ∃! p : Placement 8, p.board = board) ∧
      ∃ n₀, ∀ fuel, n₀ ≤ fuel → backtrack fuel (emptyBoard 8) 0 [] =
        some (emptyBoard 8, results) :=
  backtrack_places (by decide)

example : backtrack 5 (emptyBoard 4) 0 [] =
    some (emptyBoard 4, [boardOf 4 [1, 3, 0, 2], boardOf 4 [2, 0, 3, 1]]) := by
  decide +kernel

end CxxPandora.Labuladong.SolveNQueens
