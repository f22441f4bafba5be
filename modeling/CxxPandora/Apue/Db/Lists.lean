import CxxPandora.Apue.Db.Layout
import Mathlib.Data.List.Find

/-!
# The lists of a database

`Layout.Filed` says where a record belongs: those on the free list are blank, and those on a hash
chain have a key of that hash value which no other record has. `Layout.get` reads such a layout as a
map from keys to data. A record that is taken off its list, or put on one, changes the map at its
key only (`Filed.unlink`, `Filed.push`). `Layout.Wf` adds that the lists are threaded through the
pointers, and that every record is on one of them.
-/

namespace CxxPandora.Apue.Db

open Lib

/-- Blank keys belong to deleted records. -/
def Blank (key : List UInt8) : Prop := ∀ c ∈ key, c = SPACE

/-- Each record is on a list where it belongs. -/
structure Layout.Filed (L : Layout) : Prop where
  blank : ∀ o ∈ L.lists .free, Blank (L.entry o).key
  chain : ∀ k o, k ≠ ListId.free → o ∈ L.lists k → k = ListId.ofKey (L.entry o).key
  live : ∀ k o, k ≠ ListId.free → o ∈ L.lists k → ¬Blank (L.entry o).key
  unique : ∀ k o p, k ≠ ListId.free → o ∈ L.lists k → p ∈ L.lists k →
    (L.entry o).key = (L.entry p).key → o = p
  nodup : ∀ k, (L.lists k).Nodup

/-- What the library keeps about the records. -/
structure Layout.Wf (L : Layout) : Prop extends L.Filed where
  threads : Threads L.next anchor L.lists
  mem_offs : ∀ o, o ∈ L.offs ↔ ∃ k, o ∈ L.lists k

/-- The data that belong to a key. -/
def Layout.get (L : Layout) (key : List UInt8) : Option (List UInt8) :=
  ((L.lists (ListId.ofKey key)).find? fun o => decide ((L.entry o).key = key)).map fun o =>
    (L.entry o).data

/-- The layout after a list has been changed. -/
def Layout.setList (L : Layout) (k : ListId) (l : List ℕ) : Layout :=
  { L with lists := Function.update L.lists k l }

/-- The chain of a key is not the free list. -/
theorem ListId.ofKey_ne_free (key : List UInt8) : ListId.ofKey key ≠ ListId.free := fun heq =>
  absurd (congrArg Fin.val heq) (Nat.succ_ne_zero _)

/-- The pointer to the chain of a key whose hash value is defined. -/
theorem anchor_ofKey {key : List UInt8} {hval : ℕ} (h : db_hash key = some hval) :
    anchor (ListId.ofKey key) = hval * PTR_SZ + HASH_OFF := by
  have hanchor : anchor (ListId.ofKey key) = (db_hash key).getD 0 * PTR_SZ + HASH_OFF :=
    Nat.succ_mul _ _
  rw [hanchor, h, Option.getD_some]

/-- Different lists hang on different anchors. -/
theorem anchor_injective : Function.Injective anchor := fun k m h =>
  Fin.ext (Nat.eq_of_mul_eq_mul_right (by decide) h)

namespace Layout

variable {L : Layout} {key data : List UInt8} {o p : ℕ} {u v l : List ℕ} {k m : ListId} {r : Rec}

/-- The list that has been changed. -/
theorem lists_setList_self : (L.setList k l).lists k = l := Function.update_self ..

/-- Any other list. -/
theorem lists_setList_of_ne (h : m ≠ k) : (L.setList k l).lists m = L.lists m :=
  Function.update_of_ne h _ _

/-- The data of a key are those of a record that has it. -/
theorem Filed.get_eq_some (h : L.Filed) : L.get key = some data ↔
    ∃ o ∈ L.lists (ListId.ofKey key), (L.entry o).key = key ∧ (L.entry o).data = data := by
  have hne := ListId.ofKey_ne_free key
  unfold Layout.get
  rw [Option.map_eq_some_iff]
  constructor
  · rintro ⟨o, ho, hdata⟩
    exact ⟨o, List.mem_of_find?_eq_some ho, of_decide_eq_true (List.find?_some ho :), hdata⟩
  · rintro ⟨o, ho, hkey, hdata⟩
    refine ⟨o, ?_, hdata⟩
    cases hfind : (L.lists (ListId.ofKey key)).find? fun o => decide ((L.entry o).key = key) with
    | none =>
      exact absurd (decide_eq_true hkey) (List.find?_eq_none.mp hfind o ho)
    | some p =>
      have hp := List.mem_of_find?_eq_some hfind
      have hpkey : (L.entry p).key = key := of_decide_eq_true (List.find?_some hfind :)
      rw [h.unique _ p o hne hp ho (hpkey.trans hkey.symm)]

/-- There are no data for a key that no record has. -/
theorem get_eq_none :
    L.get key = none ↔ ∀ o ∈ L.lists (ListId.ofKey key), (L.entry o).key ≠ key := by
  unfold Layout.get
  rw [Option.map_eq_none_iff, List.find?_eq_none]
  exact forall₂_congr fun o _ => not_congr decide_eq_true_iff

/-- The map only depends on the records of the list, and on their data. -/
theorem get_congr {L' : Layout} (hlists : L'.lists (ListId.ofKey key) = L.lists (ListId.ofKey key))
    (hentry : ∀ o ∈ L.lists (ListId.ofKey key), L'.entry o = L.entry o) :
    L'.get key = L.get key := by
  cases hget : L.get key with
  | none =>
    rw [get_eq_none] at hget ⊢
    intro o ho
    rw [hlists] at ho
    rw [hentry o ho]
    exact hget o ho
  | some data =>
    unfold Layout.get at hget ⊢
    obtain ⟨o, ho, hdata⟩ := Option.map_eq_some_iff.mp hget
    rw [hlists, Option.map_eq_some_iff]
    refine ⟨o, ?_, by rw [hentry o (List.mem_of_find?_eq_some ho), hdata]⟩
    rw [← ho]
    exact List.find?_congr fun p hp => by rw [hentry p hp]

/-- The record that a key has is taken off its list. -/
theorem Filed.unlink (h : L.Filed) (hk : L.lists k = u ++ o :: v) :
    (L.setList k (u ++ v)).Filed := by
  have hsub : ∀ m p, p ∈ (L.setList k (u ++ v)).lists m → p ∈ L.lists m := by
    intro m p hp
    exact Threads.mem_update_unlink hk hp
  refine ⟨fun p hp => h.blank p (hsub _ p hp), fun m p hm hp => h.chain m p hm (hsub m p hp),
    fun m p hm hp => h.live m p hm (hsub m p hp),
    fun m p q hm hp hq => h.unique m p q hm (hsub m p hp) (hsub m q hq), fun m => ?_⟩
  by_cases hm : m = k
  · subst hm
    have hnodup := h.nodup m
    rw [hk] at hnodup
    rw [lists_setList_self]
    exact (List.nodup_cons.mp (List.nodup_middle.mp hnodup)).2
  · rw [lists_setList_of_ne hm]
    exact h.nodup m

/-- Then the key has no data any more, and every other key has the data that it had. -/
theorem Filed.get_unlink (h : L.Filed) (hk : L.lists (ListId.ofKey key) = u ++ o :: v)
    (hkey : (L.entry o).key = key) :
    (L.setList (ListId.ofKey key) (u ++ v)).get = Function.update L.get key none := by
  funext key'
  by_cases hkk : key' = key
  · subst hkk
    rw [Function.update_self, get_eq_none, lists_setList_self]
    intro p hp hpkey
    have hnodup := h.nodup (ListId.ofKey key')
    rw [hk] at hnodup
    have hpo : p = o := h.unique _ p o (ListId.ofKey_ne_free key')
      (by rw [hk]; exact List.mem_append.mpr ((List.mem_append.mp hp).imp_right
        (List.mem_cons_of_mem o)))
      (by rw [hk]; exact List.mem_append_right u List.mem_cons_self) (hpkey.trans hkey.symm)
    exact (List.nodup_cons.mp (List.nodup_middle.mp hnodup)).1 (hpo ▸ hp)
  · rw [Function.update_of_ne hkk]
    by_cases hlist : ListId.ofKey key' = ListId.ofKey key
    · -- Another key with the same hash value.
      cases hget : L.get key' with
      | none =>
        rw [get_eq_none] at hget ⊢
        rw [hlist, lists_setList_self]
        intro p hp
        refine hget p ?_
        rw [hlist, hk]
        exact List.mem_append.mpr ((List.mem_append.mp hp).imp_right (List.mem_cons_of_mem o))
      | some data =>
        obtain ⟨p, hp, hpkey, hdata⟩ := h.get_eq_some.mp hget
        refine (h.unlink hk).get_eq_some.mpr ⟨p, ?_, hpkey, hdata⟩
        rw [hlist, lists_setList_self]
        rw [hlist, hk] at hp
        rcases List.mem_append.mp hp with hp | hp
        · exact List.mem_append_left v hp
        · rcases List.mem_cons.mp hp with rfl | hp
          · exact absurd (hpkey.symm.trans hkey) hkk
          · exact List.mem_append_right u hp
    · exact get_congr (lists_setList_of_ne hlist) fun _ _ => rfl

/-- A change of the free list does not change the map. -/
theorem get_setList_free : (L.setList .free l).get = L.get :=
  funext fun key => get_congr (lists_setList_of_ne (ListId.ofKey_ne_free key)) fun _ _ => rfl

/-- A record that is on no list is overwritten. -/
theorem Filed.setEntry (h : L.Filed) (ho : ∀ m, o ∉ L.lists m) (r : Rec) :
    (L.setEntry o r).Filed := by
  have hentry : ∀ m, ∀ p ∈ L.lists m, (L.setEntry o r).entry p = L.entry p := fun m p hp =>
    entry_setEntry_of_ne fun heq => ho m (heq ▸ hp)
  refine ⟨fun p hp => ?_, fun m p hm hp => ?_, fun m p hm hp => ?_, fun m p q hm hp hq => ?_,
    h.nodup⟩
  · rw [hentry _ p hp]
    exact h.blank p hp
  · rw [hentry m p hp]
    exact h.chain m p hm hp
  · rw [hentry m p hp]
    exact h.live m p hm hp
  · rw [hentry m p hp, hentry m q hq]
    exact h.unique m p q hm hp hq

/-- This does not change the map. -/
theorem get_setEntry (ho : ∀ m, o ∉ L.lists m) : (L.setEntry o r).get = L.get :=
  funext fun _ => get_congr rfl fun _ hp => entry_setEntry_of_ne fun heq => ho _ (heq ▸ hp)

/-- A blank record that is on no list is put on the free list. -/
theorem Filed.push_free (h : L.Filed) (ho : o ∉ L.lists .free) (hblank : Blank (L.entry o).key) :
    (L.setList .free (o :: L.lists .free)).Filed := by
  refine ⟨fun p hp => ?_, fun m p hm hp => ?_, fun m p hm hp => ?_, fun m p q hm hp hq => ?_,
    fun m => ?_⟩
  · rw [lists_setList_self] at hp
    rcases List.mem_cons.mp hp with rfl | hp
    · exact hblank
    · exact h.blank p hp
  · rw [lists_setList_of_ne hm] at hp
    exact h.chain m p hm hp
  · rw [lists_setList_of_ne hm] at hp
    exact h.live m p hm hp
  · rw [lists_setList_of_ne hm] at hp hq
    exact h.unique m p q hm hp hq
  · by_cases hm : m = .free
    · subst hm
      rw [lists_setList_self]
      exact List.nodup_cons.mpr ⟨ho, h.nodup _⟩
    · rw [lists_setList_of_ne hm]
      exact h.nodup m

/-- A record with a new key that is on no list is put on the chain of the key. -/
theorem Filed.push (h : L.Filed) (hkey : (L.entry o).key = key) (hlive : ¬Blank key)
    (hnew : ∀ p ∈ L.lists (ListId.ofKey key), (L.entry p).key ≠ key) :
    (L.setList (ListId.ofKey key) (o :: L.lists (ListId.ofKey key))).Filed := by
  have hfree := ListId.ofKey_ne_free key
  have hcases : ∀ m p, p ∈ (L.setList (ListId.ofKey key)
      (o :: L.lists (ListId.ofKey key))).lists m →
        p ∈ L.lists m ∨ p = o ∧ m = ListId.ofKey key := by
    intro m p hp
    by_cases hm : m = ListId.ofKey key
    · subst hm
      rw [lists_setList_self] at hp
      rcases List.mem_cons.mp hp with rfl | hp
      · exact Or.inr ⟨rfl, rfl⟩
      · exact Or.inl hp
    · rw [lists_setList_of_ne hm] at hp
      exact Or.inl hp
  refine ⟨fun p hp => ?_, fun m p hm hp => ?_, fun m p hm hp => ?_, fun m p q hm hp hq heq => ?_,
    fun m => ?_⟩
  · rw [lists_setList_of_ne hfree.symm] at hp
    exact h.blank p hp
  · rcases hcases m p hp with hp | ⟨rfl, rfl⟩
    · exact h.chain m p hm hp
    · exact congrArg ListId.ofKey hkey.symm
  · rcases hcases m p hp with hp | ⟨rfl, rfl⟩
    · exact h.live m p hm hp
    · exact fun hblank => hlive (hkey ▸ hblank)
  · rcases hcases m p hp with hp | ⟨hpo, hmk⟩ <;> rcases hcases m q hq with hq | ⟨hqo, hmk'⟩
    · exact h.unique m p q hm hp hq heq
    · rw [hqo] at heq
      exact absurd (heq.trans hkey) (hnew p (hmk' ▸ hp))
    · rw [hpo] at heq
      exact absurd (heq.symm.trans hkey) (hnew q (hmk ▸ hq))
    · rw [hpo, hqo]
  · by_cases hm : m = ListId.ofKey key
    · subst hm
      rw [lists_setList_self]
      exact List.nodup_cons.mpr ⟨fun ho => hnew o ho hkey, h.nodup _⟩
    · rw [lists_setList_of_ne hm]
      exact h.nodup m

/-- Then the key has the data of the record, and every other key has the data that it had. -/
theorem Filed.get_push (h : L.Filed) (hkey : (L.entry o).key = key) (hlive : ¬Blank key)
    (hnew : ∀ p ∈ L.lists (ListId.ofKey key), (L.entry p).key ≠ key) :
    (L.setList (ListId.ofKey key) (o :: L.lists (ListId.ofKey key))).get =
      Function.update L.get key (some (L.entry o).data) := by
  funext key'
  by_cases hkk : key' = key
  · subst hkk
    rw [Function.update_self]
    refine (h.push hkey hlive hnew).get_eq_some.mpr ⟨o, ?_, hkey, rfl⟩
    rw [lists_setList_self]
    exact List.mem_cons_self
  · rw [Function.update_of_ne hkk]
    by_cases hlist : ListId.ofKey key' = ListId.ofKey key
    · cases hget : L.get key' with
      | none =>
        rw [get_eq_none] at hget ⊢
        rw [hlist, lists_setList_self]
        intro p hp
        rcases List.mem_cons.mp hp with rfl | hp
        · exact fun heq => hkk (heq.symm.trans hkey)
        · exact hget p (hlist ▸ hp)
      | some data =>
        obtain ⟨p, hp, hpkey, hdata⟩ := h.get_eq_some.mp hget
        refine (h.push hkey hlive hnew).get_eq_some.mpr ⟨p, ?_, hpkey, hdata⟩
        rw [hlist, lists_setList_self]
        exact List.mem_cons_of_mem o (hlist ▸ hp)
    · exact get_congr (lists_setList_of_ne hlist) fun _ _ => rfl

/-- Only the records and the lists matter. -/
theorem Filed.congr {L' : Layout} (h : L.Filed) (hentry : L'.entry = L.entry)
    (hlists : L'.lists = L.lists) : L'.Filed := by
  obtain ⟨hblank, hchain, hlive, hunique, hnodup⟩ := h
  refine ⟨?_, ?_, ?_, ?_, ?_⟩ <;> rw [hlists] <;> try rw [hentry]
  all_goals assumption

/-- The place of the pointer to a record. -/
theorem Wf.slot_linkTo (h : L.Wf) (hk : L.lists k = u ++ o :: v) :
    L.Slot (linkTo (anchor k) u) := by
  rcases linkTo_eq_or_mem (anchor k) u with hanchor | hmem
  · exact Or.inl ⟨_, hanchor⟩
  · exact Or.inr ((h.mem_offs _).mpr ⟨_, hk ▸ List.mem_append_left _ hmem⟩)

/-- A record on a list. -/
theorem Wf.mem_of_eq (h : L.Wf) (hk : L.lists k = u ++ o :: v) : o ∈ L.offs :=
  (h.mem_offs o).mpr ⟨k, hk ▸ List.mem_append_right u List.mem_cons_self⟩

/-- There are no more records on a list than bytes in the index file. -/
theorem Wf.length_le (h : L.Wf) {idx dat : List UInt8} (hF : L.Fits idx dat) (k : ListId) :
    (L.lists k).length ≤ idx.length := by
  have hsub : L.lists k ⊆ List.range idx.length := by
    intro o ho
    have hle := (hF.bounds ((h.mem_offs o).mpr ⟨k, ho⟩)).2
    unfold Layout.size PTR_SZ at hle
    exact List.mem_range.mpr (by omega)
  have hle := (List.subperm_of_subset (h.nodup k) hsub).length_le
  rwa [List.length_range] at hle

end Layout

end CxxPandora.Apue.Db
