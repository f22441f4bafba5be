import CxxPandora.Apue.Db.Lists

/-!
# Searching the lists of a database

The two loops over a list, `_db_find_and_lock` over the chain of a key and `_db_findfree` over the
free list. Both are proved by induction on the records that are left, for the records that have been
passed over: where the loop stands, it knows the place of the pointer that led it there.
-/

namespace CxxPandora.Apue.Db

open Lib

variable {L : Layout} {db : DB} {key : List UInt8} {o : ℕ} {u v : List ℕ} {k : ListId}

/-- The handle is on an index record. -/
structure DB.On (db : DB) (L : Layout) (o : ℕ) : Prop where
  idxoff : db.idxoff = o
  idxbuf : db.idxbuf = (L.entry o).key
  datoff : db.datoff = (L.entry o).datoff
  datlen : db.datlen = (L.entry o).datlen
  ptrval : db.ptrval = ((L.next o).getD 0 : ℕ)

/-- The handle is on a record that has been read. -/
theorem DB.on_onRec (db : DB) (L : Layout) (o : ℕ) : (db.onRec L o).On L o := by
  unfold DB.onRec
  exact ⟨rfl, rfl, rfl, rfl, rfl⟩

/-- The handle after a record has been passed over. -/
def DB.passed (db : DB) (L : Layout) (o : ℕ) : DB := { db.onRec L o with ptroff := o }

/-- Two handles of the same files on the same chain. -/
structure DB.Same (db db' : DB) : Prop where
  idx : db'.idx = db.idx
  dat : db'.dat = db.dat
  chainoff : db'.chainoff = db.chainoff

namespace DB.Same

variable {db' db'' : DB}

/-- Two changes that leave the files and the chain. -/
theorem trans (h : db.Same db') (h' : db'.Same db'') : db.Same db'' :=
  ⟨h'.idx.trans h.idx, h'.dat.trans h.dat, h'.chainoff.trans h.chainoff⟩

/-- A record that is read leaves the files and the chain. -/
theorem onRec (db : DB) (L : Layout) (o : ℕ) : db.Same (db.onRec L o) := by
  unfold DB.onRec
  exact ⟨rfl, rfl, rfl⟩

/-- A record that is passed over leaves the files and the chain. -/
theorem passed (db : DB) (L : Layout) (o : ℕ) : db.Same (db.passed L o) := by
  unfold DB.passed DB.onRec
  exact ⟨rfl, rfl, rfl⟩

/-- The same files are those of the same layout. -/
theorem fits (h : db.Same db') (hF : L.Fits db.idx db.dat) : L.Fits db'.idx db'.dat := by
  rw [h.idx, h.dat]
  exact hF

end DB.Same

/-- The loop over the chain of a key stops at the record with the key, if there is one. -/
theorem findLoop_spec (key : List UInt8) (hF : L.Fits db.idx db.dat) (hW : L.Wf)
    (hk : L.lists k = u ++ v) {n : ℕ} (hn : v.length ≤ n)
    (hptroff : db.ptroff = linkTo (anchor k) u) :
    (∃ u' o v' db', v = u' ++ o :: v' ∧ (L.entry o).key = key ∧ db.Same db' ∧ db'.On L o ∧
      db'.ptroff = linkTo (anchor k) (u ++ u') ∧
      findLoop key n (v.head?.getD 0 : ℕ) db = .ok ((o : ℤ), db')) ∨
    ((∀ o ∈ v, (L.entry o).key ≠ key) ∧
      ∃ db', db.Same db' ∧ findLoop key n (v.head?.getD 0 : ℕ) db = .ok (0, db')) := by
  induction v generalizing u n db with
  | nil =>
    refine Or.inr ⟨fun o ho => absurd ho List.not_mem_nil, db, ⟨rfl, rfl, rfl⟩, ?_⟩
    unfold findLoop
    rfl
  | cons o v ih =>
    obtain ⟨n, rfl⟩ : ∃ n', n = n' + 1 := ⟨n - 1, by rw [List.length_cons] at hn; omega⟩
    have ho : o ∈ L.offs := hW.mem_of_eq hk
    have hne : ((o : ℕ) : ℤ) ≠ 0 := Int.natCast_ne_zero.mpr (hF.ne_zero ho)
    have hread := hF.readidx ho (Or.inl rfl)
    have hnext : L.next o = v.head? := hW.threads.next_eq hk
    have hloop : findLoop key (n + 1) ((o :: v).head?.getD 0 : ℕ) db =
        (if (db.onRec L o).idxbuf = key then pure (o : ℤ) else
          set (db.passed L o) >>= fun _ => findLoop key n (v.head?.getD 0 : ℕ) : DbM ℤ)
          (db.onRec L o) := by
      rw [List.head?_cons, Option.getD_some]
      conv_lhs => unfold findLoop
      rw [if_neg hne]
      show (db_readidx (o : ℤ) >>= _) db = _
      rw [bind_ok hread, bind_get, hnext]
      rfl
    have hon := db.on_onRec L o
    by_cases hkey : (L.entry o).key = key
    · -- The record with the key.
      refine Or.inl ⟨[], o, v, db.onRec L o, rfl, hkey, .onRec db L o, hon, ?_, ?_⟩
      · rw [List.append_nil, ← hptroff]
        unfold DB.onRec
        rfl
      · rw [hloop, if_pos (hon.idxbuf.trans hkey)]
        rfl
    · -- The loop goes on behind it.
      have hk' : L.lists k = (u ++ [o]) ++ v := by
        rw [hk, List.append_assoc, List.singleton_append]
      have hsame' := DB.Same.passed db L o
      have hptroff' : (db.passed L o).ptroff = linkTo (anchor k) (u ++ [o]) := by
        rw [linkTo_concat]
        unfold DB.passed
        rfl
      rw [hloop, if_neg (fun heq => hkey (hon.idxbuf.symm.trans heq)), bind_set]
      rcases ih (hsame'.fits hF) hk' (Nat.le_of_succ_le_succ hn) hptroff' with
        ⟨u', o', v', db', rfl, hkey', hsame, hon, hptr, heq⟩ | ⟨hnone, db', hsame, heq⟩
      · refine Or.inl ⟨o :: u', o', v', db', rfl, hkey', hsame'.trans hsame, hon, ?_, heq⟩
        rwa [List.append_assoc, List.singleton_append] at hptr
      · exact Or.inr ⟨List.forall_mem_cons.mpr ⟨hkey, hnone⟩, db', hsame'.trans hsame, heq⟩

/-- The handle has found a record on the chain of a key, behind the records `u`. -/
structure DB.Found (db : DB) (L : Layout) (key : List UInt8) (u : List ℕ) (o : ℕ) (v : List ℕ) :
    Prop where
  chain : L.lists (ListId.ofKey key) = u ++ o :: v
  entry_key : (L.entry o).key = key
  on : db.On L o
  ptroff : db.ptroff = linkTo (anchor (ListId.ofKey key)) u

/-- The handle at the pointer to the chain of a key. -/
def DB.atChain (db : DB) (key : List UInt8) : DB := { db with
  chainoff := anchor (ListId.ofKey key)
  ptroff := anchor (ListId.ofKey key) }

/-- The handle after the pointer to the chain of a key has been read. -/
def DB.onChain (db : DB) (key : List UInt8) : DB :=
  { db.atChain key with pos := anchor (ListId.ofKey key) + PTR_SZ }

/-- The length up to which the hash value of every key is defined. -/
def KEY_MAX : ℕ := 2^24

/-- The hash value of a key of at most that length. -/
theorem db_hash_eq_some {key : List UInt8} (h : key.length ≤ KEY_MAX) :
    ∃ hval, db_hash key = some hval := by
  have hloop : ∀ (cs : List UInt8) (i sum : ℕ), i + cs.length ≤ 2^24 + 1 →
      ∃ hval, (cs.zipIdx i).foldlM (fun hval p =>
        (checkInt (charVal p.1 * p.2)).bind fun prod =>
          (checkInt ((p.2 : ℤ) + 1)).map fun _ => sizeAdd hval (toSize prod)) sum = some hval := by
    intro cs
    induction cs with
    | nil => exact fun _ sum _ => ⟨sum, rfl⟩
    | cons c cs ih =>
      intro i sum hi
      rw [List.length_cons] at hi
      obtain ⟨hge, hle⟩ := charVal_bounds c
      have hmin : -2^31 ≤ charVal c * i := by nlinarith
      have hmax : charVal c * i < 2^31 := by nlinarith
      have hprod : checkInt (charVal c * i) = some (charVal c * i) := checkInt_eq hmin hmax
      have hnext : checkInt ((i : ℤ) + 1) = some ((i : ℤ) + 1) :=
        checkInt_of_nonneg (by omega) (by unfold intMax; omega)
      rw [List.zipIdx_cons, List.foldlM_cons]
      dsimp only
      rw [hprod, Option.bind_some, hnext, Option.map_some]
      exact ih (i + 1) _ (by omega)
  obtain ⟨sum, hsum⟩ := hloop key 1 0 (by unfold KEY_MAX at h; omega)
  exact ⟨sum % NHASH_DEF, Option.map_eq_some_iff.mpr ⟨sum, hsum, rfl⟩⟩

/-- `_db_find_and_lock` finds the record with the key, if there is one. -/
theorem db_find_spec (hF : L.Fits db.idx db.dat) (hW : L.Wf) {key : List UInt8}
    (hlong : key.length ≤ KEY_MAX) :
    ∃ db', db'.idx = db.idx ∧ db'.dat = db.dat ∧
      db'.chainoff = anchor (ListId.ofKey key) ∧
      ((∃ u o v, db'.Found L key u o v ∧ db_find key db = .ok (true, db')) ∨
        ((∀ o ∈ L.lists (ListId.ofKey key), (L.entry o).key ≠ key) ∧
          db_find key db = .ok (false, db'))) := by
  obtain ⟨hval, hhash⟩ := db_hash_eq_some hlong
  have hptr := anchor_ofKey hhash
  have hatChain : L.Fits (db.atChain key).idx (db.atChain key).dat := hF
  have honChain : L.Fits (db.onChain key).idx (db.onChain key).dat := hF
  have hread : db_readptr (anchor (ListId.ofKey key)) (db.atChain key) = .ok
      ((((L.lists (ListId.ofKey key)).head?.getD 0 : ℕ) : ℤ), db.onChain key) := by
    rw [hatChain.readptr (Or.inl ⟨_, rfl⟩), hW.threads.next_anchor]
    rfl
  have hstart : db_find key db = (findLoop key db.idx.length
      ((L.lists (ListId.ofKey key)).head?.getD 0 : ℕ) >>= fun offset =>
        pure (decide (offset ≠ 0)) : DbM Bool) (db.onChain key) := by
    unfold db_find
    rw [bind_defined hhash, ← hptr, bind_modify]
    show (db_readptr (anchor (ListId.ofKey key)) >>= _) (db.atChain key) = _
    rw [bind_ok hread, bind_get]
    rfl
  rcases findLoop_spec key (u := []) honChain hW rfl (hW.length_le hF _) rfl with
    ⟨u, o, v, db', hlist, hkey, hsame, hon, hptroff, heq⟩ | ⟨hnone, db', hsame, heq⟩
  · refine ⟨db', hsame.idx, hsame.dat, hsame.chainoff,
      Or.inl ⟨u, o, v, ⟨hlist, hkey, hon, hptroff⟩, ?_⟩⟩
    have ho : o ∈ L.offs := hW.mem_of_eq hlist
    have hne : ((o : ℕ) : ℤ) ≠ 0 := Int.natCast_ne_zero.mpr (hF.ne_zero ho)
    rw [hstart, bind_ok heq, decide_eq_true hne]
    rfl
  · refine ⟨db', hsame.idx, hsame.dat, hsame.chainoff, Or.inr ⟨hnone, ?_⟩⟩
    rw [hstart, bind_ok heq]
    rfl

/-! ## The free list -/

/-- A record of the given sizes. -/
def Rec.Matches (r : Rec) (keylen datlen : ℕ) : Prop := r.key.length = keylen ∧ r.datlen = datlen

/-- The loop over the free list stops at a record of the right sizes, if there is one. -/
theorem freeLoop_spec (hF : L.Fits db.idx db.dat) (hW : L.Wf) (hk : L.lists k = u ++ v) {n : ℕ}
    (hn : v.length ≤ n) (keylen datlen : ℕ) :
    (∃ u' o v' db', v = u' ++ o :: v' ∧ (L.entry o).Matches keylen datlen ∧ db.Same db' ∧
      db'.On L o ∧ freeLoop keylen datlen n (linkTo (anchor k) u : ℕ) (v.head?.getD 0 : ℕ) db =
        .ok (((o : ℤ), ((linkTo (anchor k) (u ++ u') : ℕ) : ℤ)), db')) ∨
    ((∀ o ∈ v, ¬(L.entry o).Matches keylen datlen) ∧ ∃ save db', db.Same db' ∧
      freeLoop keylen datlen n (linkTo (anchor k) u : ℕ) (v.head?.getD 0 : ℕ) db =
        .ok ((0, save), db')) := by
  induction v generalizing u n db with
  | nil =>
    refine Or.inr ⟨fun o ho => absurd ho List.not_mem_nil, (linkTo (anchor k) u : ℕ), db,
      ⟨rfl, rfl, rfl⟩, ?_⟩
    unfold freeLoop
    rfl
  | cons o v ih =>
    obtain ⟨n, rfl⟩ : ∃ n', n = n' + 1 := ⟨n - 1, by rw [List.length_cons] at hn; omega⟩
    have ho : o ∈ L.offs := hW.mem_of_eq hk
    have hne : ((o : ℕ) : ℤ) ≠ 0 := Int.natCast_ne_zero.mpr (hF.ne_zero ho)
    have hread := hF.readidx ho (Or.inl rfl)
    have hnext : L.next o = v.head? := hW.threads.next_eq hk
    have hloop : freeLoop keylen datlen (n + 1) (linkTo (anchor k) u : ℕ)
        ((o :: v).head?.getD 0 : ℕ) db =
        (if (db.onRec L o).idxbuf.length = keylen ∧ (db.onRec L o).datlen = datlen then
          pure ((o : ℤ), ((linkTo (anchor k) u : ℕ) : ℤ))
        else freeLoop keylen datlen n (o : ℤ) (v.head?.getD 0 : ℕ) : DbM (ℤ × ℤ))
          (db.onRec L o) := by
      rw [List.head?_cons, Option.getD_some]
      conv_lhs => unfold freeLoop
      rw [if_neg hne]
      show (db_readidx (o : ℤ) >>= _) db = _
      rw [bind_ok hread, bind_get, hnext]
    have hon := db.on_onRec L o
    have hsame' := DB.Same.onRec db L o
    rw [hon.idxbuf, hon.datlen] at hloop
    by_cases hmatch : (L.entry o).key.length = keylen ∧ (L.entry o).datlen = datlen
    · refine Or.inl ⟨[], o, v, db.onRec L o, rfl, hmatch, hsame', hon, ?_⟩
      rw [hloop, List.append_nil, if_pos hmatch]
      rfl
    · have hk' : L.lists k = (u ++ [o]) ++ v := by
        rw [hk, List.append_assoc, List.singleton_append]
      have hlink : ((o : ℕ) : ℤ) = (linkTo (anchor k) (u ++ [o]) : ℕ) := by rw [linkTo_concat]
      rw [hloop, if_neg hmatch, hlink]
      rcases ih (hsame'.fits hF) hk' (Nat.le_of_succ_le_succ hn) with
        ⟨u', o', v', db', rfl, hmatch', hsame, hon, heq⟩ | ⟨hnone, save, db', hsame, heq⟩
      · refine Or.inl ⟨o :: u', o', v', db', rfl, hmatch', hsame'.trans hsame, hon, ?_⟩
        rw [heq, List.append_assoc, List.singleton_append]
      · exact Or.inr ⟨List.forall_mem_cons.mpr ⟨hmatch, hnone⟩, save, db', hsame'.trans hsame, heq⟩

/-- `_db_findfree` takes a record of the right sizes off the free list, if there is one. -/
theorem db_findfree_spec (hF : L.Fits db.idx db.dat) (hW : L.Wf) (keylen datlen : ℕ) :
    ∃ db', db'.dat = db.dat ∧ db'.chainoff = db.chainoff ∧
      ((∃ u o v, L.lists .free = u ++ o :: v ∧ (L.entry o).Matches keylen datlen ∧
        db'.idxoff = o ∧ db'.datoff = (L.entry o).datoff ∧
        (L.setNext (linkTo (anchor .free) u) (L.next o)).Fits db'.idx db'.dat ∧
        db'.idx.length = db.idx.length ∧
        db_findfree keylen datlen db = .ok (true, db')) ∨
      ((∀ o ∈ L.lists .free, ¬(L.entry o).Matches keylen datlen) ∧ db'.idx = db.idx ∧
        db_findfree keylen datlen db = .ok (false, db'))) := by
  have hread : db_readptr (FREE_OFF : ℕ) db = .ok
      ((((L.lists .free).head?.getD 0 : ℕ) : ℤ), { db with pos := anchor .free + PTR_SZ }) := by
    have hptr := hF.readptr (Or.inl ⟨ListId.free, rfl⟩)
    rwa [hW.threads.next_anchor] at hptr
  have hF' : L.Fits ({ db with pos := anchor .free + PTR_SZ } : DB).idx
      ({ db with pos := anchor .free + PTR_SZ } : DB).dat := hF
  have hstart : db_findfree keylen datlen db =
      (freeLoop keylen datlen db.idx.length (linkTo (anchor .free) [] : ℕ)
        ((L.lists .free).head?.getD 0 : ℕ) >>= fun p =>
          if p.1 = 0 then pure false
          else get >>= fun db => db_writeptr p.2 db.ptrval >>= fun _ => pure true : DbM Bool)
        { db with pos := anchor .free + PTR_SZ } := by
    unfold db_findfree
    rw [bind_ok hread, bind_get]
    rfl
  rcases freeLoop_spec (k := .free) (u := []) hF' hW rfl (hW.length_le hF _) keylen datlen with
    ⟨u, o, v, db', hlist, hmatch, hsame, hon, heq⟩ | ⟨hnone, save, db', hsame, heq⟩
  · have ho : o ∈ L.offs := hW.mem_of_eq hlist
    have hne : ((o : ℕ) : ℤ) ≠ 0 := Int.natCast_ne_zero.mpr (hF.ne_zero ho)
    have hslot : L.Slot (linkTo (anchor .free) u) := hW.slot_linkTo hlist
    have hnext : ∀ p, L.next o = some p → p ∈ L.offs := fun p => hF.next_mem o p (Or.inr ho)
    have hF'' : L.Fits db'.idx db'.dat := by
      rw [hsame.idx, hsame.dat]
      exact hF
    have hwrite := hF''.writeptr hslot hnext
    rw [← hon.ptrval] at hwrite
    refine ⟨{ db' with
        idx := writeAt db'.idx (linkTo (anchor .free) u) (ptrText (L.next o))
        pos := linkTo (anchor .free) u + PTR_SZ }, hsame.dat, hsame.chainoff,
      Or.inl ⟨u, o, v, hlist, hmatch, hon.idxoff, hon.datoff, hF''.setNext hslot hnext, ?_, ?_⟩⟩
    · show (writeAt db'.idx _ _).length = _
      rw [length_writeAt_of_le, hsame.idx]
      rw [hF''.length_ptrText_of hnext]
      exact hF''.slot_le hslot
    · rw [hstart, bind_ok heq, List.nil_append, if_neg hne, bind_get, bind_ok hwrite]
      rfl
  · refine ⟨db', hsame.dat, hsame.chainoff, Or.inr ⟨hnone, hsame.idx, ?_⟩⟩
    rw [hstart, bind_ok heq, if_pos rfl]
    rfl

end CxxPandora.Apue.Db
