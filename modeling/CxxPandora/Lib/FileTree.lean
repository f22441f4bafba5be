import Mathlib.Data.List.AList
import Mathlib.Order.Defs.PartialOrder

/-!
# File trees with symbolic links

The directories, files and symbolic links of a file system. An address is the names from an entry up
to the root, so that the entries of a directory are those with one name more in front. A path is
resolved component by component; a link's target is resolved from the directory that holds the link,
or from the root, with as many links as may be followed in all.

A tree is below another when it has some of its entries (`≤`). What resolves in the smaller one
resolves in the other, to the same address (`resolve_mono`), and a path that resolves has a prefix
that does (`exists_resolve_of_append`).
-/

namespace CxxPandora.Lib

/-- A component of a path: `.` or nothing, `..`, or a name. -/
inductive Comp (ν : Type)
  | here
  | up
  | name (n : ν)
deriving DecidableEq

/-- A path: from the root, or from a directory. -/
structure Path (ν : Type) where
  absolute : Bool
  comps : List (Comp ν)
deriving DecidableEq

/-- Where a path starts that is met in a directory. -/
def Path.start {ν : Type} (p : Path ν) (a : List ν) : List ν := if p.absolute then [] else a

/-- What an entry is. -/
inductive Kind (ν : Type)
  | file
  | dir
  | link (target : Path ν)
deriving DecidableEq

/-- Where a link leads. -/
def Kind.target {ν : Type} : Kind ν → Option (Path ν)
  | .link p => some p
  | .file | .dir => none

/-- The names from an entry up to the root. -/
abbrev Addr (ν : Type) := List ν

/-- A tree of entries. -/
structure FileTree (ν : Type) [DecidableEq ν] where
  /-- The entries, by address. -/
  entries : AList fun _ : Addr ν => Kind ν
  /-- The root is a directory. -/
  root_dir : entries.lookup [] = some .dir
  /-- An entry is in a directory. -/
  parent_dir : ∀ n a, n :: a ∈ entries → entries.lookup a = some .dir

namespace FileTree

variable {ν : Type} [DecidableEq ν] {t t' : FileTree ν} {n : ν} {a b : Addr ν}

/-- The tree with the given entries. -/
def ofEntries (entries : AList fun _ : Addr ν => Kind ν)
    (hroot : entries.lookup [] = some .dir)
    (hparent : ∀ k ∈ entries.keys, entries.lookup k.tail = some .dir) : FileTree ν where
  entries := entries
  root_dir := hroot
  parent_dir n a h := hparent (n :: a) (AList.mem_keys.mp h)

/-- What stands at an address. -/
def kind (t : FileTree ν) (a : Addr ν) : Option (Kind ν) := t.entries.lookup a

/-- The names in a directory. -/
def names (t : FileTree ν) (a : Addr ν) : List ν :=
  t.entries.keys.filterMap fun
    | n :: b => if b = a then some n else none
    | [] => none

/-- The names in a directory are those of its entries. -/
theorem mem_names : n ∈ t.names a ↔ t.kind (n :: a) ≠ none := by
  unfold names kind
  rw [Ne, AList.lookup_eq_none, not_not, AList.mem_keys, List.mem_filterMap]
  constructor
  · rintro ⟨k, hk, hname⟩
    cases k with
    | nil => exact absurd hname.symm (Option.some_ne_none n)
    | cons m b =>
      dsimp only at hname
      split_ifs at hname with hb
      rwa [← hb, ← Option.some.inj hname]
  · intro hmem
    exact ⟨n :: a, hmem, if_pos rfl⟩

/-- Each name is in a directory once. -/
theorem nodup_names (t : FileTree ν) (a : Addr ν) : (t.names a).Nodup := by
  refine t.entries.keys_nodup.filterMap fun k k' n hk hk' => ?_
  cases k with
  | nil => exact absurd hk (Option.not_mem_none n)
  | cons m b =>
    cases k' with
    | nil => exact absurd hk' (Option.not_mem_none n)
    | cons m' b' =>
      dsimp only at hk hk'
      split_ifs at hk hk' with hb hb'
      · rw [hb, hb', Option.some.inj hk, Option.some.inj hk']
      all_goals exact absurd ‹_› (Option.not_mem_none n)

/-- The root is a directory. -/
theorem kind_root : t.kind [] = some .dir := t.root_dir

/-- What holds an entry is a directory. -/
theorem kind_parent (h : t.kind (n :: a) ≠ none) : t.kind a = some .dir :=
  t.parent_dir n a (not_not.mp fun hmem => h (AList.lookup_eq_none.mpr hmem))

/-- The parent of an entry, or the root itself, exists. -/
theorem kind_tail (h : t.kind a ≠ none) : t.kind a.tail ≠ none := by
  cases a with
  | nil => exact h
  | cons n a =>
    rw [List.tail_cons, kind_parent h]
    exact Option.some_ne_none _

/-! ## Removing a directory -/

/-- The tree without an empty directory. -/
def remove (t : FileTree ν) (n : ν) (a : Addr ν) (h : t.names (n :: a) = []) : FileTree ν where
  entries := t.entries.erase (n :: a)
  root_dir := by
    rw [AList.lookup_erase_ne (List.cons_ne_nil n a).symm]
    exact t.root_dir
  parent_dir := by
    rintro m b hmem
    obtain ⟨-, hmem⟩ := AList.mem_erase.mp hmem
    have hne : b ≠ n :: a := by
      rintro rfl
      have hm : m ∈ t.names (n :: a) :=
        mem_names.mpr fun hnone => AList.lookup_eq_none.mp hnone hmem
      exact List.not_mem_nil (h ▸ hm)
    rw [AList.lookup_erase_ne hne]
    exact t.parent_dir m b hmem

/-- The directory is gone. -/
theorem kind_remove_self (h : t.names (n :: a) = []) : (t.remove n a h).kind (n :: a) = none :=
  AList.lookup_erase _ _

/-- The other entries are still there. -/
theorem kind_remove_of_ne (h : t.names (n :: a) = []) (hne : b ≠ n :: a) :
    (t.remove n a h).kind b = t.kind b := AList.lookup_erase_ne hne

/-- Some of the entries. -/
instance : Preorder (FileTree ν) where
  le t' t := ∀ a k, t'.kind a = some k → t.kind a = some k
  le_refl _ _ _ := id
  le_trans _ _ _ h h' a k hk := h' a k (h a k hk)

/-- The tree without a directory has some of the entries. -/
theorem remove_le (h : t.names (n :: a) = []) : t.remove n a h ≤ t := by
  intro b k hk
  by_cases hb : b = n :: a
  · rw [hb, kind_remove_self] at hk
    exact absurd hk.symm (Option.some_ne_none k)
  · rwa [kind_remove_of_ne h hb] at hk

/-- What is not there is not there with fewer entries. -/
theorem kind_eq_none_of_le (h : t' ≤ t) (ha : t.kind a = none) : t'.kind a = none := by
  refine Option.eq_none_iff_forall_ne_some.mpr fun k hk => ?_
  exact absurd ((h a k hk).symm.trans ha) (Option.some_ne_none k)

/-! ## Resolving a path -/

/-- A path is walked up to the next link, which `follow` is told of. -/
def walkWith (t : FileTree ν) (left : ℕ)
    (follow : Addr ν → Path ν → List (Comp ν) → Option (ℕ × Addr ν)) :
    Addr ν → List (Comp ν) → Option (ℕ × Addr ν)
  | a, [] => some (left, a)
  | a, .here :: cs => if t.kind a = some .dir then walkWith t left follow a cs else none
  | a, .up :: cs => if t.kind a = some .dir then walkWith t left follow a.tail cs else none
  | a, .name n :: cs =>
    match t.kind (n :: a) with
    | none => none
    | some kd =>
      match kd.target with
      | none => walkWith t left follow (n :: a) cs
      | some p => follow a p cs

/-- Components are walked from an address, with so many links that may be followed. The result is
the number of links left and the address. -/
def walk (t : FileTree ν) : ℕ → Addr ν → List (Comp ν) → Option (ℕ × Addr ν)
  | 0 => t.walkWith 0 fun _ _ _ => none
  | left + 1 => t.walkWith (left + 1) fun a p cs => t.walk left (p.start a) (p.comps ++ cs)

/-- The address that a path resolves to in a process whose working directory is `cwd`. -/
def resolve (t : FileTree ν) (links : ℕ) (cwd : Addr ν) (p : Path ν) : Option (Addr ν) :=
  if t.kind (p.start cwd) = some .dir then (t.walk links (p.start cwd) p.comps).map Prod.snd
  else none

section Walk

variable (t) {left : ℕ} {cs : List (Comp ν)} {kd : Kind ν} {p : Path ν}

/-- Nothing is left to walk. -/
theorem walk_nil : t.walk left a [] = some (left, a) := by cases left <;> rfl

/-- `.` stays where it is, in a directory. -/
theorem walk_here :
    t.walk left a (.here :: cs) = if t.kind a = some .dir then t.walk left a cs else none := by
  cases left <;> rfl

/-- `..` leads to what holds the directory. -/
theorem walk_up :
    t.walk left a (.up :: cs) = if t.kind a = some .dir then t.walk left a.tail cs else none := by
  cases left <;> rfl

variable {t}

/-- A name that is not there leads nowhere. -/
theorem walk_missing (h : t.kind (n :: a) = none) : t.walk left a (.name n :: cs) = none := by
  cases left <;> simp only [walk, walkWith, h]

/-- A name of what is not a link leads to it. -/
theorem walk_entry (h : t.kind (n :: a) = some kd) (hkd : kd.target = none) :
    t.walk left a (.name n :: cs) = t.walk left (n :: a) cs := by
  cases left <;> simp only [walk, walkWith, h, hkd]

/-- The name of a link leads to its target when links may be followed. -/
theorem walk_link (h : t.kind (n :: a) = some kd) (hkd : kd.target = some p) :
    t.walk (left + 1) a (.name n :: cs) = t.walk left (p.start a) (p.comps ++ cs) := by
  simp only [walk, walkWith, h, hkd]

/-- Too many links. -/
theorem walk_loop (h : t.kind (n :: a) = some kd) (hkd : kd.target = some p) :
    t.walk 0 a (.name n :: cs) = none := by
  simp only [walk, walkWith, h, hkd]

/-- Induction along a walk: on the links left, and under it on the components. -/
theorem walk_induct {motive : ℕ → Addr ν → List (Comp ν) → Prop}
    (nil : ∀ left a, motive left a [])
    (here : ∀ left a cs, motive left a cs → motive left a (.here :: cs))
    (up : ∀ left a cs, motive left a.tail cs → motive left a (.up :: cs))
    (missing : ∀ left n a cs, t.kind (n :: a) = none → motive left a (.name n :: cs))
    (entry : ∀ left n a cs kd, t.kind (n :: a) = some kd → kd.target = none →
      motive left (n :: a) cs → motive left a (.name n :: cs))
    (link : ∀ left n a cs kd p, t.kind (n :: a) = some kd → kd.target = some p →
      motive left (p.start a) (p.comps ++ cs) → motive (left + 1) a (.name n :: cs))
    (loop : ∀ n a cs kd p, t.kind (n :: a) = some kd → kd.target = some p →
      motive 0 a (.name n :: cs))
    (left : ℕ) (a : Addr ν) (cs : List (Comp ν)) : motive left a cs := by
  induction left generalizing a cs with
  | zero =>
    induction cs generalizing a with
    | nil => exact nil 0 a
    | cons c cs ih =>
      cases c with
      | here => exact here 0 a cs (ih a)
      | up => exact up 0 a cs (ih a.tail)
      | name n =>
        rcases hn : t.kind (n :: a) with _ | kd
        · exact missing 0 n a cs hn
        · rcases hkd : kd.target with _ | p
          · exact entry 0 n a cs kd hn hkd (ih (n :: a))
          · exact loop n a cs kd p hn hkd
  | succ left ihl =>
    induction cs generalizing a with
    | nil => exact nil (left + 1) a
    | cons c cs ih =>
      cases c with
      | here => exact here (left + 1) a cs (ih a)
      | up => exact up (left + 1) a cs (ih a.tail)
      | name n =>
        rcases hn : t.kind (n :: a) with _ | kd
        · exact missing (left + 1) n a cs hn
        · rcases hkd : kd.target with _ | p
          · exact entry (left + 1) n a cs kd hn hkd (ih (n :: a))
          · exact link left n a cs kd p hn hkd (ihl _ _)

/-- A walk in two parts. -/
theorem walk_append (ds : List (Comp ν)) :
    t.walk left a (cs ++ ds) = (t.walk left a cs).bind fun r => t.walk r.1 r.2 ds := by
  induction left, a, cs using walk_induct (t := t) with
  | nil left a => rw [walk_nil, List.nil_append, Option.bind_some]
  | here left a cs ih =>
    rw [List.cons_append, walk_here, walk_here, ih]
    split_ifs <;> rfl
  | up left a cs ih =>
    rw [List.cons_append, walk_up, walk_up, ih]
    split_ifs <;> rfl
  | missing left n a cs hn => rw [List.cons_append, walk_missing hn, walk_missing hn]; rfl
  | entry left n a cs kd hn hkd ih =>
    rw [List.cons_append, walk_entry hn hkd, walk_entry hn hkd, ih]
  | link left n a cs kd p hn hkd ih =>
    rw [List.cons_append, walk_link hn hkd, walk_link hn hkd, ← ih, List.append_assoc]
  | loop n a cs kd p hn hkd => rw [List.cons_append, walk_loop hn hkd, walk_loop hn hkd]; rfl

/-- A walk among fewer entries is one among more. -/
theorem walk_mono (h : t' ≤ t) {r : ℕ × Addr ν} (hwalk : t'.walk left a cs = some r) :
    t.walk left a cs = some r := by
  induction left, a, cs using walk_induct (t := t') with
  | nil left a => rwa [walk_nil] at hwalk ⊢
  | here left a cs ih =>
    rw [walk_here] at hwalk ⊢
    split_ifs at hwalk with hdir
    rw [if_pos (h a _ hdir)]
    exact ih hwalk
  | up left a cs ih =>
    rw [walk_up] at hwalk ⊢
    split_ifs at hwalk with hdir
    rw [if_pos (h a _ hdir)]
    exact ih hwalk
  | missing left n a cs hn =>
    rw [walk_missing hn] at hwalk
    exact absurd hwalk.symm (Option.some_ne_none r)
  | entry left n a cs kd hn hkd ih =>
    rw [walk_entry hn hkd] at hwalk
    rw [walk_entry (h _ _ hn) hkd]
    exact ih hwalk
  | link left n a cs kd p hn hkd ih =>
    rw [walk_link hn hkd] at hwalk
    rw [walk_link (h _ _ hn) hkd]
    exact ih hwalk
  | loop n a cs kd p hn hkd =>
    rw [walk_loop hn hkd] at hwalk
    exact absurd hwalk.symm (Option.some_ne_none r)

/-- A walk from a directory ends at an entry. -/
theorem kind_walk {r : ℕ × Addr ν} (ha : t.kind a ≠ none) (hwalk : t.walk left a cs = some r) :
    t.kind r.2 ≠ none := by
  induction left, a, cs using walk_induct (t := t) with
  | nil left a =>
    rw [walk_nil] at hwalk
    rwa [← Option.some.inj hwalk]
  | here left a cs ih =>
    rw [walk_here] at hwalk
    split_ifs at hwalk
    exact ih ha hwalk
  | up left a cs ih =>
    rw [walk_up] at hwalk
    split_ifs at hwalk
    exact ih (kind_tail ha) hwalk
  | missing left n a cs hn =>
    rw [walk_missing hn] at hwalk
    exact absurd hwalk.symm (Option.some_ne_none r)
  | entry left n a cs kd hn hkd ih =>
    rw [walk_entry hn hkd] at hwalk
    exact ih (hn ▸ Option.some_ne_none kd) hwalk
  | link left n a cs kd p hn hkd ih =>
    rw [walk_link hn hkd] at hwalk
    refine ih ?_ hwalk
    unfold Path.start
    split_ifs
    · rw [kind_root]
      exact Option.some_ne_none _
    · rw [kind_parent (hn ▸ Option.some_ne_none kd)]
      exact Option.some_ne_none _
  | loop n a cs kd p hn hkd =>
    rw [walk_loop hn hkd] at hwalk
    exact absurd hwalk.symm (Option.some_ne_none r)

/-- What a path resolves to. -/
theorem resolve_eq_some_iff {links : ℕ} {cwd : Addr ν} :
    t.resolve links cwd p = some a ↔
      t.kind (p.start cwd) = some .dir ∧ ∃ j, t.walk links (p.start cwd) p.comps = some (j, a) := by
  unfold resolve
  rw [ite_eq_iff, or_iff_left fun h => Option.some_ne_none a h.2.symm, Option.map_eq_some_iff]
  refine and_congr_right' ⟨?_, ?_⟩
  · rintro ⟨⟨j, b⟩, hwalk, rfl⟩
    exact ⟨j, hwalk⟩
  · rintro ⟨j, hwalk⟩
    exact ⟨(j, a), hwalk, rfl⟩

end Walk

section Resolve

variable {links : ℕ} {cwd : Addr ν} {p : Path ν} {abs : Bool} {cs ds : List (Comp ν)}

/-- What resolves among fewer entries resolves to the same address among more. -/
theorem resolve_mono (h : t' ≤ t) (hp : t'.resolve links cwd p = some a) :
    t.resolve links cwd p = some a := by
  obtain ⟨hstart, j, hwalk⟩ := resolve_eq_some_iff.mp hp
  exact resolve_eq_some_iff.mpr ⟨h _ _ hstart, j, walk_mono h hwalk⟩

/-- A path resolves to an entry. -/
theorem kind_of_resolve (hp : t.resolve links cwd p = some a) : t.kind a ≠ none := by
  obtain ⟨hstart, j, hwalk⟩ := resolve_eq_some_iff.mp hp
  exact kind_walk (hstart ▸ Option.some_ne_none _) hwalk

/-- The first part of a path that resolves does. -/
theorem exists_resolve_of_append (hp : t.resolve links cwd ⟨abs, cs ++ ds⟩ = some a) :
    ∃ b, t.resolve links cwd ⟨abs, cs⟩ = some b := by
  obtain ⟨hstart, j, hwalk⟩ := resolve_eq_some_iff.mp hp
  rw [walk_append] at hwalk
  obtain ⟨⟨i, b⟩, hpre, -⟩ := Option.bind_eq_some_iff.mp hwalk
  exact ⟨b, resolve_eq_some_iff.mpr ⟨hstart, i, hpre⟩⟩

/-- A path goes on from the address that its first part resolves to. -/
theorem resolve_append (hp : t.resolve links cwd ⟨abs, cs⟩ = some a) :
    ∃ left, ∀ ds, t.resolve links cwd ⟨abs, cs ++ ds⟩ = (t.walk left a ds).map Prod.snd := by
  obtain ⟨hstart, left, hwalk⟩ := resolve_eq_some_iff.mp hp
  refine ⟨left, fun ds => (if_pos hstart).trans (congrArg _ ?_)⟩
  have hfirst : t.walk links (Path.start ⟨abs, cs ++ ds⟩ cwd) cs = some (left, a) := hwalk
  rw [walk_append, hfirst, Option.bind_some]

/-- A path goes on to an entry of the directory it resolves to. -/
theorem resolve_append_name {kd : Kind ν} (hp : t.resolve links cwd ⟨abs, cs⟩ = some a)
    (hn : t.kind (n :: a) = some kd) (hkd : kd.target = none) :
    t.resolve links cwd ⟨abs, cs ++ [.name n]⟩ = some (n :: a) := by
  obtain ⟨left, happend⟩ := resolve_append hp
  rw [happend, walk_entry hn hkd, walk_nil, Option.map_some]

/-- `.` after the path of a directory leads to the same directory. -/
theorem resolve_append_here (hp : t.resolve links cwd ⟨abs, cs⟩ = some a)
    (ha : t.kind a = some .dir) (hds : ∀ c ∈ ds, c = .here) :
    t.resolve links cwd ⟨abs, cs ++ ds⟩ = some a := by
  obtain ⟨left, happend⟩ := resolve_append hp
  rw [happend]
  clear happend hp
  induction ds with
  | nil => rw [walk_nil, Option.map_some]
  | cons c ds ih =>
    rw [hds c List.mem_cons_self, walk_here, if_pos ha]
    exact ih fun c hc => hds c (List.mem_cons_of_mem _ hc)

end Resolve

end FileTree

end CxxPandora.Lib
