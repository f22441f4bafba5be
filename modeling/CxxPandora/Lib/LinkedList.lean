import Mathlib.Data.List.Basic
import Mathlib.Data.List.Nodup
import Mathlib.Logic.Function.Basic

/-!
# Linked lists

A memory of nodes, each with a link to the next one or to none. `Segment next a l b` says that the
links lead from `a` over the nodes `l` to `b`, so that a list that ends is a segment to `none`.
Segments are put together (`segment_append`), and a link that is changed outside a segment leaves it
as it was (`segment_update`). A list that ends has no node twice (`Segment.nodup`).
-/

namespace CxxPandora.Lib

variable {ι : Type*} {next : ι → Option ι} {a b c : Option ι} {l l' : List ι} {x : ι}

/-- The links lead from the first pointer over the nodes to the second. -/
def Segment (next : ι → Option ι) (a : Option ι) : List ι → Option ι → Prop
  | [], b => a = b
  | x :: l, b => a = some x ∧ Segment next (next x) l b

/-- One segment after another. -/
theorem segment_append :
    Segment next a (l ++ l') c ↔ ∃ b, Segment next a l b ∧ Segment next b l' c := by
  induction l generalizing a with
  | nil => exact ⟨fun h => ⟨a, rfl, h⟩, fun ⟨b, hb, h⟩ => hb ▸ h⟩
  | cons x l ih =>
    rw [List.cons_append, Segment, ih]
    constructor
    · rintro ⟨ha, b, hl, hl'⟩
      exact ⟨b, ⟨ha, hl⟩, hl'⟩
    · rintro ⟨b, ⟨ha, hl⟩, hl'⟩
      exact ⟨ha, b, hl, hl'⟩

/-- A segment of one node. -/
theorem segment_singleton : Segment next (some x) [x] b ↔ next x = b :=
  and_iff_right rfl

/-- Changing a link outside a segment. -/
theorem segment_update [DecidableEq ι] {p : ι} (hp : p ∉ l) (z : Option ι) :
    Segment (Function.update next p z) a l b ↔ Segment next a l b := by
  induction l generalizing a with
  | nil => exact Iff.rfl
  | cons x l ih =>
    rw [List.mem_cons, not_or] at hp
    rw [Segment, Segment, Function.update_of_ne (Ne.symm hp.1), ih hp.2]

/-- A list that ends starts with its first node. -/
theorem Segment.eq_head? (h : Segment next a l none) : a = l.head? := by
  cases l with
  | nil => exact h
  | cons x l => exact h.1

/-- A list that ends is determined by its first pointer. -/
theorem Segment.unique (h : Segment next a l none) (h' : Segment next a l' none) : l = l' := by
  induction l generalizing a l' with
  | nil =>
    obtain rfl : a = none := h
    exact List.head?_eq_none_iff.mp h'.eq_head?.symm ▸ rfl
  | cons x l ih =>
    obtain ⟨rfl, hl⟩ := h
    cases l' with
    | nil => exact absurd h' (Option.some_ne_none x)
    | cons y l' =>
      obtain ⟨hy, hl'⟩ := h'
      obtain rfl := Option.some.inj hy
      rw [ih hl hl']

/-- A list that ends has no node twice. -/
theorem Segment.nodup (h : Segment next a l none) : l.Nodup := by
  induction l generalizing a with
  | nil => exact List.nodup_nil
  | cons x l ih =>
    obtain ⟨rfl, hl⟩ := h
    refine List.nodup_cons.mpr ⟨fun hx => ?_, ih hl⟩
    -- The nodes after the second occurrence are those after the first.
    obtain ⟨u, v, rfl⟩ := List.append_of_mem hx
    obtain ⟨b, -, hb, hv⟩ := segment_append.mp hl
    have heq := hl.unique hv
    have hlen := congrArg List.length heq
    rw [List.length_append, List.length_cons] at hlen
    omega

end CxxPandora.Lib
