import Mathlib.Data.List.Basic

/-!
# Windows of a file

A file is the sequence of its bytes. `readAt` and `writeAt` are a read and a write at an offset,
where a write behind the end fills the gap with zeros. `Window f o w` says that the file has the
bytes `w` at the offset `o`. A write is then its own window (`window_writeAt`), and leaves every
window that it does not meet as it was (`Window.writeAt`), so that a format whose parts have their
own places needs nothing else. `LaidOut` says that records of varying sizes are laid end to end.
-/

namespace CxxPandora.Lib

variable {f g w v d : List UInt8} {o p n : ℕ}

/-- The at most `n` bytes from an offset on. -/
def readAt (f : List UInt8) (o n : ℕ) : List UInt8 := (f.drop o).take n

/-- The file after bytes have been written at an offset. -/
def writeAt (f : List UInt8) (o : ℕ) (d : List UInt8) : List UInt8 :=
  f.take o ++ List.replicate (o - f.length) 0 ++ d ++ f.drop (o + d.length)

/-- The file has the given bytes at the offset. -/
def Window (f : List UInt8) (o : ℕ) (w : List UInt8) : Prop := readAt f o w.length = w

/-- A byte that is read. -/
theorem getElem?_readAt (f : List UInt8) (o n i : ℕ) :
    (readAt f o n)[i]? = if i < n then f[o + i]? else none := by
  rw [readAt, List.getElem?_take, List.getElem?_drop]

/-- A read is no longer than what was asked for. -/
theorem length_readAt (f : List UInt8) (o n : ℕ) :
    (readAt f o n).length = min n (f.length - o) := by
  rw [readAt, List.length_take, List.length_drop]

/-- A read at the end of the file. -/
theorem readAt_of_length_le (h : f.length ≤ o) (n : ℕ) : readAt f o n = [] := by
  rw [readAt, List.drop_of_length_le h, List.take_nil]

/-- A read of one part and then of the part behind it. -/
theorem readAt_add (f : List UInt8) (o m n : ℕ) :
    readAt f o (m + n) = readAt f o m ++ readAt f (o + m) n := by
  rw [readAt, readAt, readAt, List.take_add, List.drop_drop]

/-- The file is longer only when bytes are written behind its end. -/
theorem length_writeAt (f : List UInt8) (o : ℕ) (d : List UInt8) :
    (writeAt f o d).length = max (max f.length o) (o + d.length) := by
  rw [writeAt, List.length_append, List.length_append, List.length_append, List.length_take,
    List.length_replicate, List.length_drop]
  omega

/-- A write inside the file keeps its length. -/
theorem length_writeAt_of_le (h : o + d.length ≤ f.length) :
    (writeAt f o d).length = f.length := by
  rw [length_writeAt]
  omega

/-- A write at the end of the file appends. -/
theorem writeAt_length (f d : List UInt8) : writeAt f f.length d = f ++ d := by
  have hdrop : f.drop (f.length + d.length) = [] := List.drop_of_length_le (by omega)
  rw [writeAt, List.take_length, Nat.sub_self, List.replicate_zero, List.append_nil, hdrop,
    List.append_nil]

/-- A byte that a write does not reach. -/
theorem getElem?_writeAt_of_not (f d : List UInt8) {i : ℕ} (hi : i < f.length)
    (h : i < o ∨ o + d.length ≤ i) : (writeAt f o d)[i]? = f[i]? := by
  unfold writeAt
  have hlen : (f.take o ++ List.replicate (o - f.length) 0).length = max o (min o f.length) := by
    rw [List.length_append, List.length_take, List.length_replicate]
    omega
  rcases h with hlt | hge
  · have htake : (f.take o).length = min o f.length := List.length_take
    rw [List.append_assoc, List.append_assoc, List.getElem?_append_left (by omega),
      List.getElem?_take_of_lt hlt]
  · have hlen' : (f.take o ++ List.replicate (o - f.length) 0 ++ d).length = o + d.length := by
      rw [List.length_append, hlen]
      omega
    rw [List.getElem?_append_right (by omega), hlen', List.getElem?_drop]
    congr 1
    omega

/-- A byte that a write puts down. -/
theorem getElem?_writeAt_of_lt (f d : List UInt8) {i : ℕ} (h : i < d.length) :
    (writeAt f o d)[o + i]? = d[i]? := by
  unfold writeAt
  have hlen : (f.take o ++ List.replicate (o - f.length) 0).length = o := by
    rw [List.length_append, List.length_take, List.length_replicate]
    omega
  rw [List.getElem?_append_left (by rw [List.length_append]; omega),
    List.getElem?_append_right (by omega), hlen, Nat.add_sub_cancel_left]

/-! ## Pieces of a text -/

/-- A read of a text that has been translated byte by byte. -/
theorem readAt_map (g : UInt8 → UInt8) (f : List UInt8) (o n : ℕ) :
    readAt (f.map g) o n = (readAt f o n).map g := by
  rw [readAt, readAt, List.map_take, List.map_drop]

/-- A piece of a text that is written at its place: the file is no longer than the text. -/
theorem length_writeAt_readAt_le {text : List UInt8} (hf : f.length ≤ text.length)
    (ho : o ≤ text.length) : (writeAt f o (readAt text o n)).length ≤ text.length := by
  rw [length_writeAt, length_readAt]
  omega

/-- A piece of a text that is written at its place: a byte that is in the piece, or that agreed with
the text before, agrees with the text. -/
theorem getElem?_writeAt_readAt {text : List UInt8} (hf : f.length ≤ text.length)
    (ho : o + n ≤ text.length) {i : ℕ} (h : f[i]? = text[i]? ∨ o ≤ i ∧ i < o + n) :
    (writeAt f o (readAt text o n))[i]? = text[i]? := by
  have hlength : (readAt text o n).length = n := by
    rw [length_readAt]
    omega
  by_cases hi : o ≤ i ∧ i < o + n
  · obtain ⟨k, rfl⟩ := Nat.exists_eq_add_of_le hi.1
    rw [getElem?_writeAt_of_lt f _ (by omega), getElem?_readAt, if_pos (by omega)]
  · have hagree := h.resolve_right hi
    rcases Nat.lt_or_ge i f.length with hlt | hge
    · rw [getElem?_writeAt_of_not f _ hlt (by omega), hagree]
    · have hnone := List.getElem?_eq_none_iff.mp (hagree.symm.trans (List.getElem?_eq_none hge))
      have hle := length_writeAt_readAt_le (n := n) hf (Nat.le_of_add_right_le ho)
      rw [List.getElem?_eq_none (by omega), List.getElem?_eq_none hnone]

/-! ## Windows -/

/-- A window, byte by byte. -/
theorem window_iff : Window f o w ↔ ∀ i < w.length, f[o + i]? = w[i]? := by
  unfold Window
  constructor
  · intro h i hi
    rw [← h, getElem?_readAt, if_pos hi]
  · intro h
    refine List.ext_getElem? fun i => ?_
    rw [getElem?_readAt]
    split_ifs with hi
    · exact h i hi
    · exact (List.getElem?_eq_none (by omega)).symm

/-- What a read of the length of a window gives. -/
theorem Window.readAt_eq (h : Window f o w) (hn : n = w.length) : readAt f o n = w := hn ▸ h

/-- A window is within the file. -/
theorem Window.add_length_le (h : Window f o w) (hw : w ≠ []) : o + w.length ≤ f.length := by
  have hlen := congrArg List.length h
  have hpos := List.length_pos_of_ne_nil hw
  rw [length_readAt] at hlen
  omega

/-- A window in two parts. -/
theorem window_append : Window f o (w ++ v) ↔ Window f o w ∧ Window f (o + w.length) v := by
  unfold Window
  rw [List.length_append, readAt_add]
  constructor
  · intro h
    have hlen := congrArg List.length h
    rw [List.length_append, List.length_append, length_readAt, length_readAt] at hlen
    exact List.append_inj h (by rw [length_readAt]; omega)
  · rintro ⟨hw, hv⟩
    rw [hw, hv]

/-- What is written is a window. -/
theorem window_writeAt (f : List UInt8) (o : ℕ) (d : List UInt8) : Window (writeAt f o d) o d :=
  window_iff.mpr fun _ hi => getElem?_writeAt_of_lt f d hi

/-- A window that a write does not meet. -/
theorem Window.writeAt (h : Window f o w) (hd : o + w.length ≤ p ∨ p + d.length ≤ o) :
    Window (writeAt f p d) o w := by
  rw [window_iff] at h ⊢
  intro i hi
  have hlt : o + i < f.length := by
    by_contra hge
    have hnone := h i hi
    rw [List.getElem?_eq_none (by omega), List.getElem?_eq_getElem hi] at hnone
    exact Option.some_ne_none _ hnone.symm
  rw [getElem?_writeAt_of_not f d hlt (by omega)]
  exact h i hi

/-- A window in the first part of a file. -/
theorem window_append_left (g : List UInt8) (h : o + w.length ≤ f.length) :
    Window (f ++ g) o w ↔ Window f o w := by
  rw [window_iff, window_iff]
  refine forall₂_congr fun i hi => ?_
  rw [List.getElem?_append_left (by omega)]

/-- The second part of a file is a window. -/
theorem window_append_right (f g : List UInt8) : Window (f ++ g) f.length g := by
  rw [Window, readAt, List.drop_left, List.take_length]

/-- The length of some repetitions. -/
theorem length_flatten_replicate (n : ℕ) (w : List UInt8) :
    (List.replicate n w).flatten.length = n * w.length := by
  induction n with
  | zero => rw [List.replicate_zero, List.flatten_nil, List.length_nil, Nat.zero_mul]
  | succ n ih =>
    rw [List.replicate_succ, List.flatten_cons, List.length_append, ih, Nat.succ_mul, Nat.add_comm]

/-- One of some repetitions. -/
theorem window_flatten_replicate {k : ℕ} (h : k < n) (w v : List UInt8) :
    Window ((List.replicate n w).flatten ++ v) (k * w.length) w := by
  obtain ⟨m, rfl⟩ : ∃ m, n = k + (1 + m) := ⟨n - k - 1, by omega⟩
  have hsplit : (List.replicate (k + (1 + m)) w).flatten ++ v =
      (List.replicate k w).flatten ++ (w ++ ((List.replicate m w).flatten ++ v)) := by
    rw [List.replicate_add, List.flatten_append, List.replicate_add, List.flatten_append,
      List.replicate_one, List.flatten_singleton, List.append_assoc, List.append_assoc]
  have hwin := window_append_right (List.replicate k w).flatten
    (w ++ ((List.replicate m w).flatten ++ v))
  rw [← hsplit, length_flatten_replicate] at hwin
  exact (window_append.mp hwin).1

/-! ## Records laid end to end -/

/-- The records of the given sizes, laid end to end from one offset to another. -/
def LaidOut (size : ℕ → ℕ) : ℕ → List ℕ → ℕ → Prop
  | a, [], b => a = b
  | a, o :: os, b => o = a ∧ LaidOut size (a + size a) os b

variable {size size' : ℕ → ℕ} {a b : ℕ} {os : List ℕ}

/-- Only the sizes of the records matter. -/
theorem LaidOut.congr (h : LaidOut size a os b) (hsize : ∀ o ∈ os, size' o = size o) :
    LaidOut size' a os b := by
  induction os generalizing a with
  | nil => exact h
  | cons o os ih =>
    obtain ⟨rfl, h⟩ := h
    refine ⟨rfl, ?_⟩
    rw [hsize o List.mem_cons_self]
    exact ih h fun o' ho' => hsize o' (List.mem_cons_of_mem o ho')

/-- One more record at the end. -/
theorem LaidOut.concat (h : LaidOut size a os b) : LaidOut size a (os ++ [b]) (b + size b) := by
  induction os generalizing a with
  | nil =>
    obtain rfl : a = b := h
    exact ⟨rfl, rfl⟩
  | cons o os ih => exact ⟨h.1, ih h.2⟩

/-- The records end behind where they start. -/
theorem LaidOut.le (h : LaidOut size a os b) : a ≤ b := by
  induction os generalizing a with
  | nil => exact Nat.le_of_eq h
  | cons o os ih => exact Nat.le_trans (Nat.le_add_right a _) (ih h.2)

/-- Each record is between the two offsets. -/
theorem LaidOut.bounds (h : LaidOut size a os b) (ho : o ∈ os) : a ≤ o ∧ o + size o ≤ b := by
  induction os generalizing a with
  | nil => exact absurd ho List.not_mem_nil
  | cons o' os ih =>
    obtain ⟨rfl, h⟩ := h
    rcases List.mem_cons.mp ho with rfl | ho
    · exact ⟨Nat.le_refl o, h.le⟩
    · obtain ⟨hle, hle'⟩ := ih h ho
      exact ⟨Nat.le_trans (Nat.le_add_right o' _) hle, hle'⟩

/-- Of two records, one is behind the other. -/
theorem LaidOut.apart (h : LaidOut size a os b) (ho : o ∈ os) (hp : p ∈ os) (hne : o ≠ p) :
    o + size o ≤ p ∨ p + size p ≤ o := by
  induction os generalizing a with
  | nil => exact absurd ho List.not_mem_nil
  | cons o' os ih =>
    obtain ⟨rfl, h⟩ := h
    rcases List.mem_cons.mp ho with heq | ho'
    · rcases List.mem_cons.mp hp with heq' | hp'
      · exact absurd (heq.trans heq'.symm) hne
      · exact Or.inl (heq ▸ (h.bounds hp').1)
    · rcases List.mem_cons.mp hp with heq' | hp'
      · exact Or.inr (heq' ▸ (h.bounds ho').1)
      · exact ih h ho' hp'

/-- No record is there twice when no record is empty. -/
theorem LaidOut.nodup (h : LaidOut size a os b) (hpos : ∀ o ∈ os, 0 < size o) : os.Nodup := by
  induction os generalizing a with
  | nil => exact List.nodup_nil
  | cons o os ih =>
    obtain ⟨rfl, h⟩ := h
    refine List.nodup_cons.mpr ⟨fun ho => ?_, ih h fun p hp => hpos p (List.mem_cons_of_mem o hp)⟩
    have hle := (h.bounds ho).1
    have hsize := hpos o List.mem_cons_self
    omega

/-- There are no more records than bytes when no record is empty. -/
theorem LaidOut.add_length_le (h : LaidOut size a os b) (hpos : ∀ o ∈ os, 0 < size o) :
    a + os.length ≤ b := by
  induction os generalizing a with
  | nil => exact Nat.le_of_eq h
  | cons o os ih =>
    obtain ⟨rfl, h⟩ := h
    have hle := ih h fun p hp => hpos p (List.mem_cons_of_mem o hp)
    have hsize := hpos o List.mem_cons_self
    rw [List.length_cons]
    omega

end CxxPandora.Lib
