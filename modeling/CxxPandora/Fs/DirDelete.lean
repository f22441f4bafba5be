import CxxPandora.Lib.Bytes
import CxxPandora.Lib.FileTree

/-!
# Deleting a directory

`BlDirDelete` of `demos/linux/readdir_test.c` goes down the entries of a directory and then removes
it. It asks `stat`, which follows symbolic links, what an entry is, and so takes a link to a
directory for the directory: the empty directories behind the link are removed as well, wherever it
leads. The recursion ends because every level makes the path longer and no path has `PATH_MAX`
bytes. `staysInside_iff` says for which file systems nothing outside the directory is removed.

The entries of a directory come in an order that `readdir` does not promise, so a statement about
`BlDirDelete` is about every order (`Readdir`).
-/

namespace CxxPandora.Fs

open Lib

/-- `cur_dir`. -/
def curDir : List UInt8 := [46]

/-- `up_dir`. -/
def upDir : List UInt8 := [46, 46]

/-- What separates the components of a path. -/
def slash : UInt8 := 47

/-- The bytes that can name an entry. -/
def IsName (s : List UInt8) : Prop := s ≠ [] ∧ s ≠ curDir ∧ s ≠ upDir ∧ slash ∉ s ∧ 0 ∉ s

/-- Whether bytes are a name can be computed. -/
instance (s : List UInt8) : Decidable (IsName s) := inferInstanceAs (Decidable (_ ∧ _))

/-- The name of an entry. -/
abbrev Name := {s : List UInt8 // IsName s}

/-! ## Paths -/

/-- A component of a path, as bytes between two slashes. -/
def compOf (s : List UInt8) : Comp Name :=
  if h : IsName s then .name ⟨s, h⟩ else if s = upDir then .up else .here

/-- The path that some bytes are. -/
def pathOf (p : List UInt8) : Path Name where
  absolute := p.head? == some slash
  comps := (p.splitOn slash).map compOf

/-- `PATH_MAX`, the NUL included. -/
def pathMax : ℕ := 4096

/-- As many links are followed in a path. -/
def maxSymlinks : ℕ := 40

/-- What the system takes as a path: not nothing, and not too long. -/
def Fits (p : List UInt8) : Prop := p ≠ [] ∧ p.length < pathMax

/-- Whether a path fits can be computed. -/
instance (p : List UInt8) : Decidable (Fits p) := inferInstanceAs (Decidable (_ ∧ _))

/-- `stat`: the address of what a path leads to, links followed. -/
def stat (t : FileTree Name) (cwd : Addr Name) (p : List UInt8) : Option (Addr Name) :=
  if Fits p then t.resolve maxSymlinks cwd (pathOf p) else none

/-- The entry that a path names: its last component, slashes after it apart, in the directory that
the rest leads to. The entry itself is not followed. -/
def lastEntry (t : FileTree Name) (cwd : Addr Name) (p : List UInt8) : Option (Name × Addr Name) :=
  if Fits p then
    match (p.splitOn slash).reverse.dropWhile (· == []) with
    | [] => none
    | w :: pre =>
      if h : IsName w then
        (t.resolve maxSymlinks cwd ⟨p.head? == some slash, pre.reverse.map compOf⟩).map
          fun b => (⟨w, h⟩, b)
      else none
  else none

/-- `rmdir`: the file system without the directory, when the path names one and it is empty. -/
def rmdir (t : FileTree Name) (cwd : Addr Name) (p : List UInt8) : Option (FileTree Name) :=
  match lastEntry t cwd p with
  | none => none
  | some (n, b) =>
    if h : t.kind (n :: b) = some .dir ∧ t.names (n :: b) = [] then some (t.remove n b h.2)
    else none

/-! ## The program -/

/-- What `readdir` returns one after the other for a directory, opened by a path: its entries in
some order, and perhaps `.` and `..`. An entry that is removed while the stream is read makes no
difference, returned or not: `stat` fails for it. -/
structure Readdir where
  /-- The names, up to the `NULL`. -/
  list : List UInt8 → FileTree Name → Addr Name → List (List UInt8)
  /-- No name is returned twice. -/
  nodup : ∀ p t a, (list p t a).Nodup
  /-- The names are those of the entries. -/
  mem_list : ∀ p t a s, s ≠ curDir → s ≠ upDir →
    (s ∈ list p t a ↔ ∃ n ∈ t.names a, n.val = s)

/-- The path of an entry is longer than that of the directory. -/
theorem length_lt_cstr (directory name : List UInt8) :
    (cstr directory).length < (cstr (cstr directory ++ [slash] ++ name)).length := by
  have hslash : cstr (slash :: name) = slash :: cstr name := rfl
  rw [List.append_assoc, cstr_append_of_notMem (zero_notMem_cstr directory)]
  show _ < (cstr directory ++ cstr (slash :: name)).length
  rw [hslash, List.length_append, List.length_cons]
  omega

/-- `BlDirDelete`: its result, and the file system that it leaves. -/
def blDirDelete (o : Readdir) (cwd : Addr Name) (t : FileTree Name) (directory : List UInt8) :
    Bool × FileTree Name :=
  let dir := cstr directory
  match _h : stat t cwd dir with
  | none => (false, t)
  | some a =>
    if t.kind a = some .dir then
      let t' := (o.list dir t a).foldl (fun t name =>
        if name = curDir ∨ name = upDir then t
        else (blDirDelete o cwd t (dir ++ [slash] ++ name)).2) t
      match rmdir t' cwd dir with
      | none => (false, t')
      | some t'' => (true, t'')
    -- a file, and a link is never seen
    else (false, t)
termination_by pathMax - (cstr directory).length
decreasing_by
  have hfits : Fits (cstr directory) := by
    by_contra hno
    rw [stat, if_neg hno] at _h
    exact Option.some_ne_none a _h.symm
  have hlt := hfits.2
  have hlen := length_lt_cstr directory name
  omega

/-! ## The system calls -/

section Calls

variable {t t' : FileTree Name} {cwd a b : Addr Name} {p q s : List UInt8} {n : Name}

/-- A path that leads somewhere fits. -/
theorem fits_of_stat (h : stat t cwd p = some a) : Fits p := by
  unfold stat at h
  split_ifs at h with hfits
  exact hfits

/-- What `stat` finds among fewer entries it finds among more. -/
theorem stat_mono (hle : t' ≤ t) (h : stat t' cwd p = some a) : stat t cwd p = some a := by
  have hfits := fits_of_stat h
  rw [stat, if_pos hfits] at h ⊢
  exact FileTree.resolve_mono hle h

/-- What `stat` finds is there. -/
theorem kind_of_stat (h : stat t cwd p = some a) : t.kind a ≠ none := by
  rw [stat, if_pos (fits_of_stat h)] at h
  exact FileTree.kind_of_resolve h

/-- A path that goes on after a slash. -/
theorem pathOf_append (hp : p ≠ []) (s : List UInt8) :
    pathOf (p ++ slash :: s) = ⟨(pathOf p).absolute, (pathOf p).comps ++ (pathOf s).comps⟩ := by
  unfold pathOf
  rw [List.splitOn_append_cons_self, List.map_append, List.head?_append_of_ne_nil p hp]

/-- The first part of a path that leads somewhere does. -/
theorem exists_stat_of_append (hp : p ≠ []) (h : stat t cwd (p ++ slash :: s) = some a) :
    ∃ b, stat t cwd p = some b := by
  have hlen := (fits_of_stat h).2
  rw [List.length_append] at hlen
  rw [stat, if_pos (fits_of_stat h), pathOf_append hp] at h
  obtain ⟨b, hb⟩ := FileTree.exists_resolve_of_append h
  exact ⟨b, (if_pos ⟨hp, by omega⟩).trans hb⟩

/-- The bytes of a name are that component. -/
theorem compOf_name (n : Name) : compOf n.val = .name n := dif_pos n.property

/-- What a path names: its parts. -/
theorem lastEntry_eq_some_iff :
    lastEntry t cwd p = some (n, b) ↔
      Fits p ∧ ∃ pre, (p.splitOn slash).reverse.dropWhile (· == []) = n.val :: pre ∧
        t.resolve maxSymlinks cwd ⟨p.head? == some slash, pre.reverse.map compOf⟩ = some b := by
  unfold lastEntry
  split_ifs with hfits
  · rw [and_iff_right hfits]
    rcases hws : (p.splitOn slash).reverse.dropWhile (· == []) with _ | ⟨w, pre⟩
    · simp
    · by_cases hw : IsName w
      · simp only [dif_pos hw, Option.map_eq_some_iff, Prod.mk.injEq, List.cons.injEq]
        constructor
        · rintro ⟨b', hb', rfl, rfl⟩
          exact ⟨pre, ⟨rfl, rfl⟩, hb'⟩
        · rintro ⟨pre', ⟨rfl, rfl⟩, hb'⟩
          exact ⟨b, hb', rfl, rfl⟩
      · simp only [dif_neg hw, List.cons.injEq]
        refine ⟨fun h => absurd h.symm (Option.some_ne_none _), ?_⟩
        rintro ⟨pre', ⟨rfl, -⟩, -⟩
        exact absurd n.property hw
  · simp [hfits]

/-- What a path names among fewer entries it names among more. -/
theorem lastEntry_mono (hle : t' ≤ t) (h : lastEntry t' cwd p = some (n, b)) :
    lastEntry t cwd p = some (n, b) := by
  obtain ⟨hfits, pre, hpre, hb⟩ := lastEntry_eq_some_iff.mp h
  exact lastEntry_eq_some_iff.mpr ⟨hfits, pre, hpre, FileTree.resolve_mono hle hb⟩

/-- `stat` finds the directory that a path names. -/
theorem stat_of_lastEntry (h : lastEntry t cwd p = some (n, b))
    (hdir : t.kind (n :: b) = some .dir) : stat t cwd p = some (n :: b) := by
  obtain ⟨hfits, pre, hpre, hb⟩ := lastEntry_eq_some_iff.mp h
  have hsplit := List.takeWhile_append_dropWhile (p := (· == [])) (l := (p.splitOn slash).reverse)
  rw [hpre] at hsplit
  generalize hends : (p.splitOn slash).reverse.takeWhile (· == []) = ends at hsplit
  have hcomps : (pathOf p).comps =
      (pre.reverse.map compOf ++ [.name n]) ++ ends.reverse.map compOf := by
    have hrev : p.splitOn slash = (pre.reverse ++ [n.val]) ++ ends.reverse := by
      rw [← List.reverse_reverse (p.splitOn slash), ← hsplit, List.reverse_append,
        List.reverse_cons]
    rw [pathOf, hrev, List.map_append, List.map_append, List.map_singleton, compOf_name]
  -- the slashes after the last component
  have hhere : ∀ c ∈ ends.reverse.map compOf, c = .here := by
    rintro c hc
    obtain ⟨w, hw, rfl⟩ := List.mem_map.mp hc
    rw [List.mem_reverse, ← hends] at hw
    have hnil := List.mem_takeWhile_imp hw
    rw [beq_iff_eq.mp hnil]
    rfl
  rw [stat, if_pos hfits]
  have hpath : pathOf p = ⟨p.head? == some slash,
      (pre.reverse.map compOf ++ [.name n]) ++ ends.reverse.map compOf⟩ := by
    rw [← hcomps]
    rfl
  rw [hpath]
  exact FileTree.resolve_append_here (FileTree.resolve_append_name hb hdir rfl) hdir hhere

/-- `rmdir` removes the empty directory that the path names. -/
theorem rmdir_eq_some (h : rmdir t cwd p = some t') :
    ∃ n b, ∃ hempty : t.names (n :: b) = [], lastEntry t cwd p = some (n, b) ∧
      t.kind (n :: b) = some .dir ∧ t' = t.remove n b hempty := by
  unfold rmdir at h
  rcases hlast : lastEntry t cwd p with _ | ⟨n, b⟩
  · rw [hlast] at h
    exact absurd h.symm (Option.some_ne_none t')
  · rw [hlast] at h
    dsimp only at h
    split_ifs at h with hdir
    exact ⟨n, b, hdir.2, rfl, hdir.1, (Option.some.inj h).symm⟩

/-- `rmdir` only removes. -/
theorem rmdir_le (h : rmdir t cwd p = some t') : t' ≤ t := by
  obtain ⟨n, b, hempty, -, -, rfl⟩ := rmdir_eq_some h
  exact FileTree.remove_le hempty

/-- A path that `rmdir` has removed leads nowhere. -/
theorem stat_eq_none_of_rmdir (h : rmdir t cwd p = some t') : stat t' cwd p = none := by
  obtain ⟨n, b, hempty, hlast, hdir, rfl⟩ := rmdir_eq_some h
  refine Option.eq_none_iff_forall_ne_some.mpr fun a ha => ?_
  have hnb := stat_mono (FileTree.remove_le hempty) ha
  rw [stat_of_lastEntry hlast hdir] at hnb
  rw [← Option.some.inj hnb] at ha
  exact kind_of_stat ha (FileTree.kind_remove_self hempty)

end Calls

/-! ## What a run keeps -/

section Run

variable {o : Readdir} {cwd : Addr Name} {t t' : FileTree Name} {a x : Addr Name}
  {directory q s : List UInt8} {n : Name} {names : List (List UInt8)}

/-- The loop over the entries of a directory, from the file system on. -/
def deleteAll (o : Readdir) (cwd : Addr Name) (dir : List UInt8) (t : FileTree Name)
    (names : List (List UInt8)) : FileTree Name :=
  names.foldl (fun t name =>
    if name = curDir ∨ name = upDir then t
    else (blDirDelete o cwd t (dir ++ [slash] ++ name)).2) t

/-- `.` and `..` are passed over. -/
theorem deleteAll_cons_of_dots (h : s = curDir ∨ s = upDir) :
    deleteAll o cwd q t (s :: names) = deleteAll o cwd q t names :=
  congrArg (fun u => deleteAll o cwd q u names) (if_pos h)

/-- The loop begins with the first entry. -/
theorem deleteAll_cons (hcur : s ≠ curDir) (hup : s ≠ upDir) :
    deleteAll o cwd q t (s :: names) =
      deleteAll o cwd q (blDirDelete o cwd t (q ++ [slash] ++ s)).2 names :=
  congrArg (fun u => deleteAll o cwd q u names) (if_neg (not_or.mpr ⟨hcur, hup⟩))

/-- Where `stat` fails nothing is removed. -/
theorem blDirDelete_of_none (h : stat t cwd (cstr directory) = none) :
    blDirDelete o cwd t directory = (false, t) := by
  rw [blDirDelete]
  split
  · rfl
  · rename_i a ha
    rw [h] at ha
    exact absurd ha.symm (Option.some_ne_none a)

/-- Nor is a file. -/
theorem blDirDelete_of_file (h : stat t cwd (cstr directory) = some a)
    (hfile : t.kind a ≠ some .dir) : blDirDelete o cwd t directory = (false, t) := by
  rw [blDirDelete]
  split
  · rfl
  · rename_i b hb
    rw [h] at hb
    rw [← Option.some.inj hb, if_neg hfile]

/-- A directory is removed after its entries. -/
theorem blDirDelete_of_dir (h : stat t cwd (cstr directory) = some a)
    (hdir : t.kind a = some .dir) :
    blDirDelete o cwd t directory =
      match rmdir (deleteAll o cwd (cstr directory) t (o.list (cstr directory) t a)) cwd
        (cstr directory) with
      | none => (false, deleteAll o cwd (cstr directory) t (o.list (cstr directory) t a))
      | some t' => (true, t') := by
  rw [blDirDelete]
  split
  · rename_i hb
    rw [h] at hb
    exact absurd hb (Option.some_ne_none a)
  · rename_i b hb
    rw [h] at hb
    rw [← Option.some.inj hb, if_pos hdir]
    rfl

/-- The name of the directory is read as a C string. -/
theorem blDirDelete_cstr :
    blDirDelete o cwd t (cstr directory) = blDirDelete o cwd t directory := by
  have hcstr : cstr (cstr directory) = cstr directory := cstr_eq_self (zero_notMem_cstr directory)
  rcases hs : stat t cwd (cstr directory) with _ | a
  · rw [blDirDelete_of_none hs, blDirDelete_of_none (hcstr.symm ▸ hs)]
  · by_cases hdir : t.kind a = some .dir
    · rw [blDirDelete_of_dir hs hdir, blDirDelete_of_dir (hcstr.symm ▸ hs) hdir, hcstr]
    · rw [blDirDelete_of_file hs hdir, blDirDelete_of_file (hcstr.symm ▸ hs) hdir]

/-- What the deletion of each entry keeps, the loop keeps. -/
theorem deleteAll_keeps {I : FileTree Name → Prop} (ht : I t)
    (hentry : ∀ s ∈ names, s ≠ curDir → s ≠ upDir → ∀ u, I u →
      I (blDirDelete o cwd u (q ++ [slash] ++ s)).2) :
    I (deleteAll o cwd q t names) := by
  induction names generalizing t with
  | nil => exact ht
  | cons s names ih =>
    have hrest := fun s' hs' => hentry s' (List.mem_cons_of_mem s hs')
    by_cases hdots : s = curDir ∨ s = upDir
    · rw [deleteAll_cons_of_dots hdots]
      exact ih ht hrest
    · obtain ⟨hcur, hup⟩ := not_or.mp hdots
      rw [deleteAll_cons hcur hup]
      exact ih (hentry s List.mem_cons_self hcur hup t ht) hrest

/-- What each `rmdir` of a run keeps, the run keeps. The paths `V` are those that it goes to. -/
theorem blDirDelete_keeps {I : FileTree Name → Prop} {V : List UInt8 → Prop}
    (hdown : ∀ u q b n, I u → V q → stat u cwd q = some b → u.kind b = some .dir →
      n ∈ u.names b → V (cstr (q ++ [slash] ++ n.val)))
    (hrmdir : ∀ u u' q, I u → V q → rmdir u cwd q = some u' → I u')
    (ht : I t) (hV : V (cstr directory)) : I (blDirDelete o cwd t directory).2 := by
  induction hm : pathMax - (cstr directory).length using Nat.strongRecOn
    generalizing t directory with
  | ind m ih =>
    rcases hs : stat t cwd (cstr directory) with _ | a
    · rwa [blDirDelete_of_none hs]
    · by_cases hdir : t.kind a = some .dir
      · have hloop : I (deleteAll o cwd (cstr directory) t (o.list (cstr directory) t a)) := by
          refine deleteAll_keeps ht fun s hmem hcur hup u hu => ?_
          obtain ⟨n, hn, rfl⟩ := (o.mem_list _ t a s hcur hup).mp hmem
          have hlt : pathMax - (cstr (cstr directory ++ [slash] ++ n.val)).length < m := by
            have hfits := (fits_of_stat hs).2
            have hlen := length_lt_cstr directory n.val
            omega
          exact ih _ hlt hu (hdown t _ a n ht hV hs hdir hn) rfl
        rw [blDirDelete_of_dir hs hdir]
        split
        · exact hloop
        · exact hrmdir _ _ _ hloop hV ‹_›
      · rwa [blDirDelete_of_file hs hdir]

/-- A run only removes. -/
theorem blDirDelete_le : (blDirDelete o cwd t directory).2 ≤ t :=
  blDirDelete_keeps (I := (· ≤ t)) (V := fun _ => True) (fun _ _ _ _ _ _ _ _ _ => trivial)
    (fun _ _ _ hu _ h => (rmdir_le h).trans hu) le_rfl trivial

/-- So does the loop. -/
theorem deleteAll_le : deleteAll o cwd q t names ≤ t :=
  deleteAll_keeps (I := (· ≤ t)) le_rfl fun _ _ _ _ _ hu => blDirDelete_le.trans hu

/-- A directory is removed no more than its entries and itself. -/
theorem blDirDelete_le_deleteAll (h : stat t cwd (cstr directory) = some a)
    (hdir : t.kind a = some .dir) : (blDirDelete o cwd t directory).2 ≤
      deleteAll o cwd (cstr directory) t (o.list (cstr directory) t a) := by
  rw [blDirDelete_of_dir h hdir]
  split
  · exact le_rfl
  · exact rmdir_le ‹_›

/-- The directory is gone when the result is `true`. -/
theorem stat_eq_none_of_blDirDelete (h : (blDirDelete o cwd t directory).1 = true) :
    stat (blDirDelete o cwd t directory).2 cwd (cstr directory) = none := by
  rcases hs : stat t cwd (cstr directory) with _ | a
  · rwa [blDirDelete_of_none hs]
  · by_cases hdir : t.kind a = some .dir
    · rw [blDirDelete_of_dir hs hdir] at h ⊢
      split at h
      · exact absurd h Bool.false_ne_true
      · exact stat_eq_none_of_rmdir ‹_›
    · rw [blDirDelete_of_file hs hdir] at h
      exact absurd h Bool.false_ne_true

/-- An empty directory is removed by its path. -/
theorem kind_blDirDelete_of_empty (h : stat t cwd (cstr directory) = some (n :: a))
    (hlast : lastEntry t cwd (cstr directory) = some (n, a)) (hdir : t.kind (n :: a) = some .dir)
    (hempty : t.names (n :: a) = []) :
    (blDirDelete o cwd t directory).2.kind (n :: a) = none := by
  have hloop : deleteAll o cwd (cstr directory) t (o.list (cstr directory) t (n :: a)) = t := by
    refine deleteAll_keeps (I := (· = t)) rfl fun s hmem hcur hup u hu => ?_
    obtain ⟨m, hm, -⟩ := (o.mem_list _ t (n :: a) s hcur hup).mp hmem
    exact absurd (hempty ▸ hm) List.not_mem_nil
  have hrm : rmdir t cwd (cstr directory) = some (t.remove n a hempty) := by
    rw [rmdir, hlast]
    exact dif_pos ⟨hdir, hempty⟩
  rw [blDirDelete_of_dir h hdir, hloop, hrm]
  exact FileTree.kind_remove_self hempty

end Run

/-! ## Staying inside -/

/-- The paths that the recursion comes to, were nothing removed on the way: each goes on with an
entry of the directory that the one before leads to, through links as well. -/
inductive Visited (t : FileTree Name) (cwd : Addr Name) (directory : List UInt8) :
    List UInt8 → Prop
  | start : Visited t cwd directory (cstr directory)
  | entry {q : List UInt8} {a : Addr Name} {n : Name} (hq : Visited t cwd directory q)
      (hs : stat t cwd q = some a) (hdir : t.kind a = some .dir) (hn : n ∈ t.names a) :
      Visited t cwd directory (q ++ [slash] ++ n.val)

/-- What is asked of a deletion. What it removes is the directory that the path leads to or lies
under it, each entry in a directory, and when the result is `true` the path leads nowhere. -/
structure StaysInside (o : Readdir) (cwd : Addr Name) (t : FileTree Name)
    (directory : List UInt8) : Prop where
  /-- Nothing is removed elsewhere. -/
  inside : ∀ a, t.kind a ≠ none → (blDirDelete o cwd t directory).2.kind a = none →
    ∃ r, stat t cwd (cstr directory) = some r ∧ r <:+ a
  /-- The directory is gone. -/
  gone : (blDirDelete o cwd t directory).1 = true →
    stat (blDirDelete o cwd t directory).2 cwd (cstr directory) = none

section Visited

variable {o : Readdir} {cwd : Addr Name} {t u : FileTree Name} {a b x : Addr Name}
  {directory p q : List UInt8} {n : Name}

/-- A visited path is a C string. -/
theorem Visited.zero_notMem (h : Visited t cwd directory q) : 0 ∉ q := by
  induction h with
  | start => exact zero_notMem_cstr directory
  | @entry q a n hq hs hdir hn ih =>
    obtain ⟨-, -, -, -, hzero⟩ := n.property
    rw [List.mem_append, List.mem_append, not_or, not_or]
    exact ⟨⟨ih, by decide⟩, hzero⟩

/-- A visited path goes on from the first. -/
theorem Visited.eq_or_append (h : Visited t cwd directory q) :
    q = cstr directory ∨ cstr directory ≠ [] ∧ ∃ s, q = cstr directory ++ slash :: s := by
  induction h with
  | start => exact Or.inl rfl
  | @entry q a n hq hs hdir hn ih =>
    refine Or.inr ?_
    rcases ih with rfl | ⟨hne, s, rfl⟩
    · exact ⟨(fits_of_stat hs).1, n.val, by rw [List.append_assoc]; rfl⟩
    · refine ⟨hne, s ++ slash :: n.val, ?_⟩
      rw [List.append_assoc, List.append_assoc, List.cons_append]
      rfl

/-- Where a visited path leads somewhere, the first does. -/
theorem Visited.exists_stat (h : Visited t cwd directory q) (hs : stat u cwd q = some a) :
    ∃ r, stat u cwd (cstr directory) = some r := by
  rcases h.eq_or_append with rfl | ⟨hne, s, rfl⟩
  · exact ⟨a, hs⟩
  · exact exists_stat_of_append hne hs

/-! ### An order that goes to a path first -/

/-- A path is above another, or is it. -/
def OnWay (p q : List UInt8) : Prop := q = p ∨ q ++ [slash] <+: p

/-- The component of a path after its first bytes and a slash. -/
def nextName (p q : List UInt8) : List UInt8 := (p.drop (q.length + 1)).takeWhile (· != slash)

/-- The component after a path that is above. -/
theorem nextName_of_onWay (h : OnWay p (q ++ [slash] ++ n.val)) : nextName p q = n.val := by
  obtain ⟨-, -, -, hslash, -⟩ := n.property
  have hname : ∀ c ∈ n.val, (c != slash) = true := by
    rintro c hc
    rw [bne_iff_ne]
    rintro rfl
    exact hslash hc
  have hdrop : ∀ s, (q ++ [slash] ++ s).drop (q.length + 1) = s :=
    fun s => List.drop_left' List.length_append
  unfold nextName
  rcases h with rfl | ⟨s, rfl⟩
  · rw [hdrop]
    exact List.takeWhile_eq_self_iff.mpr hname
  · rw [List.append_assoc (q ++ [slash]), List.append_assoc (q ++ [slash]), hdrop,
      List.append_assoc, List.takeWhile_append_of_pos hname]
    exact List.append_nil n.val

/-- A path above one that is above is above. -/
theorem onWay_of_append {s : List UInt8} (h : OnWay p (q ++ [slash] ++ s)) : OnWay p q := by
  refine Or.inr ?_
  rcases h with rfl | hpre
  · exact List.prefix_append _ _
  · rw [List.append_assoc _ s] at hpre
    exact (List.prefix_append _ _).trans hpre

/-- The names of the entries, the one on the way to a path first. -/
def namesToward (p q : List UInt8) (t : FileTree Name) (a : Addr Name) : List (List UInt8) :=
  let names := (t.names a).map Subtype.val
  if nextName p q ∈ names then nextName p q :: names.erase (nextName p q) else names

/-- They are the names of the entries. -/
theorem namesToward_perm (p q : List UInt8) (t : FileTree Name) (a : Addr Name) :
    (namesToward p q t a).Perm ((t.names a).map Subtype.val) := by
  unfold namesToward
  dsimp only
  split_ifs with hmem
  · exact (List.perm_cons_erase hmem).symm
  · exact List.Perm.refl _

/-- The entry on the way to a path comes first in every directory. -/
def Readdir.toward (p : List UInt8) : Readdir where
  list := namesToward p
  nodup q t a := (namesToward_perm p q t a).nodup_iff.mpr
    ((t.nodup_names a).map Subtype.val_injective)
  mem_list q t a s _ _ := by rw [(namesToward_perm p q t a).mem_iff, List.mem_map]

/-- What is removed below a path on the way is removed by the whole. -/
theorem Visited.kind_eq_none (h : Visited t cwd directory q) (hway : OnWay p q)
    (hx : (blDirDelete (.toward p) cwd t q).2.kind x = none) :
    (blDirDelete (.toward p) cwd t directory).2.kind x = none := by
  induction h with
  | start => rwa [blDirDelete_cstr] at hx
  | @entry q a n hq hs hdir hn ih =>
    refine ih (onWay_of_append hway) ?_
    have hcstr := cstr_eq_self hq.zero_notMem
    rw [← hcstr] at hs
    refine FileTree.kind_eq_none_of_le (blDirDelete_le_deleteAll hs hdir) ?_
    have hlist : ∃ rest, (Readdir.toward p).list (cstr q) t a = n.val :: rest := by
      have hmem : n.val ∈ (t.names a).map Subtype.val := List.mem_map_of_mem hn
      rw [hcstr]
      show ∃ rest, namesToward p q t a = n.val :: rest
      rw [namesToward, nextName_of_onWay hway, if_pos hmem]
      exact ⟨_, rfl⟩
    obtain ⟨rest, hrest⟩ := hlist
    obtain ⟨-, hcur, hup, -, -⟩ := n.property
    rw [hrest, deleteAll_cons hcur hup, hcstr]
    exact FileTree.kind_eq_none_of_le deleteAll_le hx

/-- An empty directory that some visited path names is removed in some order. -/
theorem Visited.removes (h : Visited t cwd directory q) (hlast : lastEntry t cwd q = some (n, b))
    (hdir : t.kind (n :: b) = some .dir) (hempty : t.names (n :: b) = []) :
    (blDirDelete (.toward q) cwd t directory).2.kind (n :: b) = none := by
  have hcstr := cstr_eq_self h.zero_notMem
  refine h.kind_eq_none (Or.inl rfl) (kind_blDirDelete_of_empty ?_ ?_ hdir hempty)
  · rw [hcstr]
    exact stat_of_lastEntry hlast hdir
  · rw [hcstr]
    exact hlast

/-! ### What is removed -/

/-- The empty directories that visited paths name are inside. -/
def EmptyInside (t : FileTree Name) (cwd : Addr Name) (directory : List UInt8) : Prop :=
  ∀ q n b, Visited t cwd directory q → lastEntry t cwd q = some (n, b) →
    t.kind (n :: b) = some .dir → t.names (n :: b) = [] →
    ∃ r, stat t cwd (cstr directory) = some r ∧ r <:+ n :: b

/-- What is missing after some of the run: entries inside. -/
def OnlyInside (t : FileTree Name) (cwd : Addr Name) (directory : List UInt8)
    (u : FileTree Name) : Prop :=
  u ≤ t ∧ ∀ a, t.kind a ≠ none → u.kind a = none →
    ∃ r, stat t cwd (cstr directory) = some r ∧ r <:+ a

/-- An `rmdir` of the run removes an entry inside. -/
theorem OnlyInside.step (hempty : EmptyInside t cwd directory) {u' : FileTree Name}
    (hu : OnlyInside t cwd directory u) (hq : Visited t cwd directory q)
    (h : rmdir u cwd q = some u') : OnlyInside t cwd directory u' := by
  obtain ⟨hle, hinside⟩ := hu
  obtain ⟨n, b, hnames, hlast, hdir, rfl⟩ := rmdir_eq_some h
  refine ⟨(FileTree.remove_le hnames).trans hle, fun a ha hnone => ?_⟩
  by_cases hab : a = n :: b
  · subst hab
    by_cases ht : t.names (n :: b) = []
    · exact hempty q n b hq (lastEntry_mono hle hlast) (hle _ _ hdir) ht
    · -- an entry of the directory has been removed before
      obtain ⟨m, hm⟩ := List.exists_mem_of_ne_nil _ ht
      have hgone : u.kind (m :: n :: b) = none := by
        by_contra hkind
        exact List.not_mem_nil (hnames ▸ FileTree.mem_names.mpr hkind)
      obtain ⟨r, hr, hsuffix⟩ := hinside _ (FileTree.mem_names.mp hm) hgone
      rcases List.suffix_cons_iff.mp hsuffix with rfl | hsuffix
      · -- it was the directory to delete, but that is still on the path
        obtain ⟨r', hr'⟩ := hq.exists_stat (stat_of_lastEntry hlast hdir)
        have heq := (stat_mono hle hr').symm.trans hr
        rw [Option.some.inj heq] at hr'
        exact absurd hgone (kind_of_stat hr')
      · exact ⟨r, hr, hsuffix⟩
  · rw [FileTree.kind_remove_of_ne hnames hab] at hnone
    exact hinside a ha hnone

/-- A run removes entries inside when the empty directories that it comes to are inside. -/
theorem onlyInside_blDirDelete (hempty : EmptyInside t cwd directory) :
    OnlyInside t cwd directory (blDirDelete o cwd t directory).2 := by
  refine blDirDelete_keeps (V := Visited t cwd directory) ?_ ?_ ?_ Visited.start
  · rintro u q b n ⟨hle, -⟩ hq hs hdir hn
    obtain ⟨-, -, -, -, hzero⟩ := n.property
    have hvisited : Visited t cwd directory (q ++ [slash] ++ n.val) := by
      refine hq.entry (stat_mono hle hs) (hle _ _ hdir) (FileTree.mem_names.mpr fun hnone => ?_)
      exact FileTree.mem_names.mp hn (FileTree.kind_eq_none_of_le hle hnone)
    rwa [cstr_eq_self hvisited.zero_notMem]
  · exact fun u u' q hu hq h => hu.step hempty hq h
  · exact ⟨le_rfl, fun a ha hnone => absurd hnone ha⟩

end Visited

/-- `BlDirDelete` always comes to an end, and it stays inside whatever the order of the entries
exactly when no path that its recursion can come to, links followed, names an empty directory
elsewhere. -/
theorem staysInside_iff (cwd : Addr Name) (t : FileTree Name) (directory : List UInt8) :
    (∀ o, StaysInside o cwd t directory) ↔
      ∀ q n b, Visited t cwd directory q → lastEntry t cwd q = some (n, b) →
        t.kind (n :: b) = some .dir → t.names (n :: b) = [] →
        ∃ r, stat t cwd (cstr directory) = some r ∧ r <:+ n :: b := by
  constructor
  · intro h q n b hq hlast hdir hempty
    refine (h (.toward q)).inside (n :: b) ?_ (hq.removes hlast hdir hempty)
    rw [hdir]
    exact Option.some_ne_none _
  · intro hempty o
    exact ⟨(onlyInside_blDirDelete hempty).2, stat_eq_none_of_blDirDelete⟩

/-- The name of one letter. -/
def letter (c : UInt8) (h : IsName [c]) : Name := ⟨[c], h⟩

/-- A directory `/d` that has only a link `l` to `/o`, where there is an empty directory `e`. -/
def linkedOut : FileTree Name :=
  let d := letter 100 (by decide)
  let e := letter 101 (by decide)
  let l := letter 108 (by decide)
  let o := letter 111 (by decide)
  .ofEntries (List.toAList [⟨[], .dir⟩, ⟨[d], .dir⟩, ⟨[l, d], .link ⟨true, [.name o]⟩⟩,
    ⟨[o], .dir⟩, ⟨[e, o], .dir⟩]) (by decide) (by decide)

/-- `BlDirDelete("/d")` removes `/o/e`. -/
theorem not_staysInside_linkedOut :
    ¬ StaysInside (.toward [47, 100, 47, 108, 47, 101]) [] linkedOut [47, 100] := by
  intro h
  have hd : Visited linkedOut [] [47, 100] [47, 100] := Visited.start
  have hl : Visited linkedOut [] [47, 100] [47, 100, 47, 108] :=
    hd.entry (a := [letter 100 (by decide)]) (n := letter 108 (by decide)) (by decide) (by decide)
      (by decide)
  have he : Visited linkedOut [] [47, 100] [47, 100, 47, 108, 47, 101] :=
    hl.entry (a := [letter 111 (by decide)]) (n := letter 101 (by decide)) (by decide) (by decide)
      (by decide)
  have hgone := he.removes (n := letter 101 (by decide)) (b := [letter 111 (by decide)])
    (by decide) (by decide) (by decide)
  obtain ⟨r, hr, hsuffix⟩ := h.inside _ (by decide) hgone
  have hstat : stat linkedOut [] (cstr [47, 100]) = some [letter 100 (by decide)] := by decide
  rw [← Option.some.inj (hstat.symm.trans hr)] at hsuffix
  exact absurd hsuffix (by decide)

end CxxPandora.Fs
