import CxxPandora.Apue.Db.Find

/-!
# Deleting and adding records

What `_db_dodelete` does to the record that the handle is on, and what `db_store` does to add a
record: at the ends of the files, or in the place of a free record. The writes to the files are
followed one by one (`Layout.Fits`); what they amount to is that a record has moved between the
lists (`Threads`, `Filed`).
-/

namespace CxxPandora.Apue.Db

open Lib

variable {L : Layout} {db : DB} {key data : List UInt8} {o : ℕ} {u v : List ℕ}

/-! ## One write after another -/

/-- A change of the handle that keeps the chain and the sizes of the files. -/
structure DB.Keeps (db db' : DB) : Prop where
  chainoff : db'.chainoff = db.chainoff
  idx_length : db'.idx.length = db.idx.length
  dat_length : db'.dat.length = db.dat.length

/-- A change of the handle that keeps the place of the record as well. -/
structure DB.Stays (db db' : DB) : Prop extends db.Keeps db' where
  idxoff : db'.idxoff = db.idxoff
  datoff : db'.datoff = db.datoff
  datlen : db'.datlen = db.datlen

/-- Two changes that keep the chain and the sizes. -/
theorem DB.Keeps.trans {db' db'' : DB} (h : db.Keeps db') (h' : db'.Keeps db'') : db.Keeps db'' :=
  ⟨h'.chainoff.trans h.chainoff, h'.idx_length.trans h.idx_length,
    h'.dat_length.trans h.dat_length⟩

section Steps

variable {s : ℕ} {p : Option ℕ}

/-- A pointer is read. -/
theorem readptr_step (hF : L.Fits db.idx db.dat) (hs : L.Slot s) :
    ∃ db', db_readptr s db = .ok ((((L.next s).getD 0 : ℕ) : ℤ), db') ∧
      L.Fits db'.idx db'.dat ∧ db.Stays db' :=
  ⟨_, hF.readptr hs, hF, ⟨rfl, rfl, rfl⟩, rfl, rfl, rfl⟩

/-- A pointer is written. -/
theorem writeptr_step (hF : L.Fits db.idx db.dat) (hs : L.Slot s)
    (hp : ∀ q, p = some q → q ∈ L.offs) :
    ∃ db', db_writeptr s (p.getD 0 : ℕ) db = .ok ((), db') ∧
      (L.setNext s p).Fits db'.idx db'.dat ∧ db.Stays db' := by
  refine ⟨_, hF.writeptr hs hp, hF.setNext hs hp, ⟨rfl, ?_, rfl⟩, rfl, rfl, rfl⟩
  refine length_writeAt_of_le ?_
  rw [hF.length_ptrText_of hp]
  exact hF.slot_le hs

/-- The data of a record are overwritten. -/
theorem writedat_step (hF : L.Fits db.idx db.dat) (ho : o ∈ L.offs)
    (hlen : data.length = (L.entry o).data.length) (hzero : 0 ∉ data) :
    ∃ db', db_writedat data (L.entry o).datoff .SEEK_SET db = .ok ((), db') ∧
      (L.setData o data).Fits db'.idx db'.dat ∧ db.Keeps db' ∧
      db'.idxoff = db.idxoff ∧ db'.datoff = (L.entry o).datoff ∧
      db'.datlen = (L.entry o).datlen := by
  refine ⟨_, hF.writedat ho hlen, hF.setData ho hlen hzero, ⟨rfl, rfl, ?_⟩, rfl, rfl, rfl⟩
  have hle := (hF.data o ho).add_length_le (by simp)
  refine length_writeAt_of_le ?_
  rw [List.length_append] at hle ⊢
  rwa [hlen]

/-- The index record of some data is overwritten. -/
theorem writeidx_step (hF : L.Fits db.idx db.dat) (ho : o ∈ L.offs)
    (hlen : key.length = (L.entry o).key.length) (hsep : SEP ∉ key) (hzero : 0 ∉ key)
    (hp : ∀ q, p = some q → q ∈ L.offs) (hdatoff : db.datoff = (L.entry o).datoff)
    (hdatlen : db.datlen = (L.entry o).datlen) :
    ∃ db', db_writeidx key o .SEEK_SET (p.getD 0 : ℕ) db = .ok ((), db') ∧
      ((L.setKey o key).setNext o p).Fits db'.idx db'.dat ∧
      db.Keeps db' ∧ db'.idxoff = o := by
  have hok := hF.ok o ho
  have hok' : ({ L.entry o with key := key } : Rec).text.length = (L.entry o).text.length :=
    Rec.length_text_eq hlen rfl rfl
  have hF' := hF.setKey ho hlen hsep hzero hp
  have hptr : (ptrText p).length = PTR_SZ := hF.length_ptrText_of hp
  have hbody : ({ L.entry o with key := key } : Rec).body.length = (L.entry o).body.length := by
    have hokNew := hF'.ok o ho
    rw [show ((L.setKey o key).setNext o p).entry o = { L.entry o with key := key } from
      Layout.entry_setKey_self] at hokNew
    rw [hokNew.length_body, hok.length_body, hok']
  have hle : o + (ptrText p ++ ({ L.entry o with key := key } : Rec).body).length ≤
      db.idx.length := by
    rw [List.length_append, hptr, hbody]
    exact (hF.bounds ho).2
  exact ⟨_, writeidx_eq (r := { L.entry o with key := key }) hdatoff hdatlen (hok' ▸ hok.min)
    (hok' ▸ hok.max) (hF.ptr_le hp) (hle.trans hF.idx_max), hF',
    ⟨rfl, length_writeAt_of_le hle, rfl⟩, rfl⟩

end Steps

/-! ## Deleting -/

/-- The record that is left where one has been deleted: as long as that one, and blank. -/
def Rec.blanked (r : Rec) : Rec where
  key := List.replicate r.key.length SPACE
  data := List.replicate r.data.length SPACE
  datoff := r.datoff

/-- The layout after the record `o` of a chain has been deleted. -/
def Layout.deleted (L : Layout) (k : ListId) (u : List ℕ) (o : ℕ) (v : List ℕ) : Layout where
  offs := L.offs
  entry := Function.update L.entry o (L.entry o).blanked
  next := Function.update (Function.update (Function.update L.next o (L.next (anchor .free)))
    (anchor .free) (some o)) (linkTo (anchor k) u) (L.next o)
  lists := Function.update (Function.update L.lists k (u ++ v)) .free (o :: L.lists .free)

/-- The layout between the two lists. -/
def Layout.cleared (L : Layout) (k : ListId) (u : List ℕ) (o : ℕ) (v : List ℕ) : Layout :=
  (L.setList k (u ++ v)).setEntry o (L.entry o).blanked

/-- A deleted record belongs to the free list. -/
theorem Layout.Wf.deleted (hW : L.Wf) (hk : L.lists (ListId.ofKey key) = u ++ o :: v)
    (hkey : (L.entry o).key = key) :
    (L.deleted (ListId.ofKey key) u o v).Wf ∧
      (L.deleted (ListId.ofKey key) u o v).get = Function.update L.get key none := by
  have hfree := (ListId.ofKey_ne_free key).symm
  have hnot : ∀ m, o ∉ (L.setList (ListId.ofKey key) (u ++ v)).lists m :=
    hW.threads.notMem_unlink hk
  have hcleared : (L.cleared (ListId.ofKey key) u o v).Filed :=
    (hW.toFiled.unlink hk).setEntry hnot _
  have hfreelist : (L.cleared (ListId.ofKey key) u o v).lists .free = L.lists .free :=
    Layout.lists_setList_of_ne (L := L) (l := u ++ v) hfree
  have hlists : (L.deleted (ListId.ofKey key) u o v).lists =
      ((L.cleared (ListId.ofKey key) u o v).setList .free
        (o :: (L.cleared (ListId.ofKey key) u o v).lists .free)).lists := by
    rw [hfreelist]
    rfl
  refine ⟨⟨?_, hW.threads.move hk hfree, ?_⟩, ?_⟩
  · refine (hcleared.push_free (hnot ListId.free) ?_).congr rfl hlists
    intro c hc
    rw [Layout.cleared, Layout.entry_setEntry_self] at hc
    exact List.eq_of_mem_replicate hc
  · intro p
    have hpush := Threads.exists_mem_push (Function.update L.lists (ListId.ofKey key) (u ++ v))
      (x := o) (k := ListId.free) (y := p)
    rw [Function.update_of_ne hfree] at hpush
    exact (hW.mem_offs p).trans ((Threads.exists_mem_unlink hk).trans hpush.symm)
  · calc (L.deleted (ListId.ofKey key) u o v).get
        = ((L.cleared (ListId.ofKey key) u o v).setList .free
            (o :: (L.cleared (ListId.ofKey key) u o v).lists .free)).get :=
          funext fun _ => Layout.get_congr (congrFun hlists _) fun _ _ => rfl
      _ = (L.cleared (ListId.ofKey key) u o v).get := Layout.get_setList_free
      _ = (L.setList (ListId.ofKey key) (u ++ v)).get := Layout.get_setEntry hnot
      _ = Function.update L.get key none := hW.toFiled.get_unlink hk hkey

/-- `sprintf` leaves a string where it is that it puts over itself. -/
def Overlap.Keeps (overlap : Overlap) : Prop := ∀ s, overlap s = some s

/-- `_db_dodelete` deletes the record that the handle is on. -/
theorem db_dodelete_spec {overlap : Overlap} (hoverlap : overlap.Keeps) (hF : L.Fits db.idx db.dat)
    (hW : L.Wf) (hfound : db.Found L key u o v) :
    ∃ db', db_dodelete overlap db = .ok ((), db') ∧ db.Keeps db' ∧
      (L.deleted (ListId.ofKey key) u o v).Fits db'.idx db'.dat := by
  have hon := hfound.on
  have ho : o ∈ L.offs := hW.mem_of_eq hfound.chain
  have hfree : L.Slot (anchor .free) := Or.inl ⟨_, rfl⟩
  have hspace : ∀ n, 0 ∉ List.replicate n SPACE := fun n h =>
    absurd (List.eq_of_mem_replicate h) (by decide)
  have hnosep : ∀ n, SEP ∉ List.replicate n SPACE := fun n h =>
    absurd (List.eq_of_mem_replicate h) (by decide)
  have hnext : ∀ s, L.Slot s → ∀ p, L.next s = some p → p ∈ L.offs :=
    fun s hs p => hF.next_mem s p hs
  -- The handle with blank buffers.
  obtain ⟨db₁, hdb₁⟩ : ∃ db₁ : DB, db₁ = { db with
      datbuf := List.replicate (db.datlen - 1) SPACE
      idxbuf := List.replicate db.idxbuf.length SPACE } := ⟨_, rfl⟩
  have hF₁ : L.Fits db₁.idx db₁.dat := by
    rw [hdb₁]
    exact hF
  have hdatbuf : db₁.datbuf = (L.entry o).blanked.data := by
    rw [hdb₁, Rec.blanked, hon.datlen, Rec.datlen, Nat.add_sub_cancel]
  have hidxbuf : db₁.idxbuf = (L.entry o).blanked.key := by
    rw [hdb₁, Rec.blanked, hon.idxbuf]
  have hdatalen : (L.entry o).blanked.data.length = (L.entry o).data.length :=
    List.length_replicate
  have hkeylen : (L.entry o).blanked.key.length = (L.entry o).key.length := List.length_replicate
  -- The writes, one by one.
  obtain ⟨db₂, hrun₂, hF₂, hkeeps₂, -, hdatoff₂, hdatlen₂⟩ :=
    writedat_step hF₁ ho hdatalen (hspace (L.entry o).data.length)
  obtain ⟨db₃, hrun₃, hF₃, hstays₃⟩ := readptr_step hF₂ hfree
  have hentry : (L.setData o (L.entry o).blanked.data).entry o =
      { L.entry o with data := (L.entry o).blanked.data } := Layout.entry_setData_self
  have hkeylen' : (L.entry o).blanked.key.length =
      ((L.setData o (L.entry o).blanked.data).entry o).key.length := by rw [hentry, hkeylen]
  have hdatoff₃ : db₃.datoff = ((L.setData o (L.entry o).blanked.data).entry o).datoff := by
    rw [hstays₃.datoff, hdatoff₂, hentry]
  have hdatlen₃ : db₃.datlen = ((L.setData o (L.entry o).blanked.data).entry o).datlen := by
    rw [hstays₃.datlen, hdatlen₂, hentry, Rec.datlen, Rec.datlen, hdatalen]
  obtain ⟨db₄, hrun₄, hF₄, hkeeps₄, hidxoff₄⟩ :=
    writeidx_step (p := L.next (anchor .free)) hF₃ ho hkeylen' (hnosep (L.entry o).key.length)
      (hspace (L.entry o).key.length) (hnext _ hfree) hdatoff₃ hdatlen₃
  obtain ⟨db₅, hrun₅, hF₅, hstays₅⟩ := writeptr_step (p := some o) hF₄ hfree (by
    rintro q hq
    obtain rfl := Option.some.inj hq
    exact ho)
  obtain ⟨db₆, hrun₆, hF₆, hstays₆⟩ := writeptr_step (p := L.next o) hF₅
    (hW.slot_linkTo hfound.chain) (hnext o (Or.inr ho))
  have hkeeps : db₁.Keeps db₆ := hkeeps₂.trans (hstays₃.toKeeps.trans
    (hkeeps₄.trans (hstays₅.toKeeps.trans hstays₆.toKeeps)))
  rw [hdb₁] at hkeeps
  refine ⟨db₆, ?_, ⟨hkeeps.chainoff, hkeeps.idx_length, hkeeps.dat_length⟩, ?_⟩
  · rw [← hdatbuf] at hrun₂
    rw [← hidxbuf] at hrun₄
    unfold db_dodelete
    rw [bind_modify, bind_get, ← hdb₁]
    have hoff : db₁.datoff = (L.entry o).datoff ∧ db₁.idxoff = o ∧
        db₁.ptrval = ((L.next o).getD 0 : ℕ) ∧
        db₁.ptroff = (linkTo (anchor (ListId.ofKey key)) u : ℕ) := by
      rw [hdb₁]
      exact ⟨hon.datoff, hon.idxoff, hon.ptrval, hfound.ptroff⟩
    rw [hoff.1, hoff.2.1, hoff.2.2.1, hoff.2.2.2, bind_ok hrun₂]
    show (db_readptr (anchor .free) >>= _) db₂ = _
    rw [bind_ok hrun₃, bind_defined (hoverlap _), Layout.next_setData, bind_ok hrun₄]
    show (db_writeptr (anchor .free) (((some o).getD 0 : ℕ) : ℤ) >>= _) db₄ = _
    rw [bind_ok hrun₅, hrun₆]
  · -- The record has been written in two steps.
    have hlayout := hF₆.withLists (L.deleted (ListId.ofKey key) u o v).lists
    unfold Layout.setKey at hlayout
    rw [hentry] at hlayout
    unfold Layout.setNext Layout.setData Layout.setEntry at hlayout
    rw [Function.update_idem] at hlayout
    exact hlayout

/-! ## Overwriting -/

/-- New data do not change the keys. -/
theorem Layout.key_setData (L : Layout) (o p : ℕ) (data : List UInt8) :
    ((L.setData o data).entry p).key = (L.entry p).key := by
  by_cases hp : p = o
  · subst hp
    rw [Layout.entry_setData_self]
  · rw [Layout.setData, Layout.entry_setEntry_of_ne hp]

/-- New data leave a record where it belongs. -/
theorem Layout.Filed.setData (h : L.Filed) (o : ℕ) (data : List UInt8) :
    (L.setData o data).Filed := by
  refine ⟨fun p hp => ?_, fun m p hm hp => ?_, fun m p hm hp => ?_, fun m p q hm hp hq heq => ?_,
    h.nodup⟩
  · rw [Layout.key_setData]
    exact h.blank p hp
  · rw [Layout.key_setData]
    exact h.chain m p hm hp
  · rw [Layout.key_setData]
    exact h.live m p hm hp
  · rw [Layout.key_setData, Layout.key_setData] at heq
    exact h.unique m p q hm hp hq heq

/-- New data are those of the key of the record. -/
theorem Layout.Filed.get_setData (h : L.Filed) (ho : o ∈ L.lists (ListId.ofKey key))
    (hkey : (L.entry o).key = key) (data : List UInt8) :
    (L.setData o data).get = Function.update L.get key (some data) := by
  funext key'
  by_cases hkk : key' = key
  · subst hkk
    rw [Function.update_self]
    refine (h.setData o data).get_eq_some.mpr ⟨o, ho, (L.key_setData o o data).trans hkey, ?_⟩
    rw [Layout.entry_setData_self]
  · rw [Function.update_of_ne hkk]
    cases hget : L.get key' with
    | none =>
      rw [Layout.get_eq_none] at hget ⊢
      intro p hp
      rw [Layout.key_setData]
      exact hget p hp
    | some d =>
      obtain ⟨p, hp, hpkey, hdata⟩ := h.get_eq_some.mp hget
      refine (h.setData o data).get_eq_some.mpr
        ⟨p, hp, (L.key_setData o p data).trans hpkey, ?_⟩
      have hpo : p ≠ o := by
        rintro rfl
        exact hkk (hpkey.symm.trans hkey)
      rw [Layout.setData, Layout.entry_setEntry_of_ne hpo]
      exact hdata

/-! ## Adding -/

/-- A key that may be stored: it has no separator and no NUL, and is not blank. -/
structure Storable (key : List UInt8) : Prop where
  sep : SEP ∉ key
  zero : 0 ∉ key
  live : ¬Blank key

/-- The layout after a record has been appended. -/
def Layout.appended (L : Layout) (o : ℕ) (r : Rec) : Layout where
  offs := L.offs ++ [o]
  entry := Function.update L.entry o r
  next := Function.update (Function.update L.next o (L.next (anchor (ListId.ofKey r.key))))
    (anchor (ListId.ofKey r.key)) (some o)
  lists := Function.update L.lists (ListId.ofKey r.key) (o :: L.lists (ListId.ofKey r.key))

/-- The layout after the free record `o` has been put to use. -/
def Layout.reused (L : Layout) (u : List ℕ) (o : ℕ) (v : List ℕ) (r : Rec) : Layout where
  offs := L.offs
  entry := Function.update L.entry o r
  next := Function.update (Function.update (Function.update L.next (linkTo (anchor .free) u)
    (L.next o)) o (L.next (anchor (ListId.ofKey r.key)))) (anchor (ListId.ofKey r.key)) (some o)
  lists := Function.update (Function.update L.lists .free (u ++ v)) (ListId.ofKey r.key)
    (o :: L.lists (ListId.ofKey r.key))

/-- An appended record belongs to the chain of its key. -/
theorem Layout.Wf.appended (hW : L.Wf) {r : Rec} (ho : o ∉ L.offs) (ho' : ∀ m, o ≠ anchor m)
    (hlive : ¬Blank r.key)
    (hnew : ∀ p ∈ L.lists (ListId.ofKey r.key), (L.entry p).key ≠ r.key) :
    (L.appended o r).Wf ∧ (L.appended o r).get = Function.update L.get r.key (some r.data) := by
  have hnot : ∀ m, o ∉ L.lists m := fun m hm => ho ((hW.mem_offs o).mpr ⟨m, hm⟩)
  have hself : (L.setEntry o r).entry o = r := Layout.entry_setEntry_self
  have hnew' : ∀ p ∈ (L.setEntry o r).lists (ListId.ofKey r.key),
      ((L.setEntry o r).entry p).key ≠ r.key := by
    intro p hp
    rw [Layout.entry_setEntry_of_ne fun heq => hnot _ (heq ▸ hp)]
    exact hnew p hp
  have hfiled := hW.toFiled.setEntry hnot r
  have hkey : ((L.setEntry o r).entry o).key = r.key := congrArg Rec.key hself
  refine ⟨⟨(hfiled.push hkey hlive hnew').congr rfl rfl, hW.threads.push hnot ho' _, ?_⟩, ?_⟩
  · intro p
    have hpush := Threads.exists_mem_push L.lists
      (x := o) (k := ListId.ofKey r.key) (y := p)
    refine Iff.trans ?_ hpush.symm
    rw [← hW.mem_offs]
    show p ∈ L.offs ++ [o] ↔ _
    rw [List.mem_append, List.mem_singleton, or_comm]
  · have hget := hfiled.get_push hkey hlive hnew'
    rw [Layout.get_setEntry hnot, hself] at hget
    exact hget

/-- A free record that is put to use belongs to the chain of its key. -/
theorem Layout.Wf.reused (hW : L.Wf) {r : Rec} (hk : L.lists .free = u ++ o :: v)
    (hlive : ¬Blank r.key)
    (hnew : ∀ p ∈ L.lists (ListId.ofKey r.key), (L.entry p).key ≠ r.key) :
    (L.reused u o v r).Wf ∧
      (L.reused u o v r).get = Function.update L.get r.key (some r.data) := by
  have hfree := ListId.ofKey_ne_free r.key
  have hnot : ∀ m, o ∉ (L.setList .free (u ++ v)).lists m := hW.threads.notMem_unlink hk
  obtain ⟨M, hM⟩ : ∃ M, M = (L.setList .free (u ++ v)).setEntry o r := ⟨_, rfl⟩
  have hself : M.entry o = r := by
    rw [hM]
    exact Layout.entry_setEntry_self
  have hlist : M.lists (ListId.ofKey r.key) = L.lists (ListId.ofKey r.key) := by
    rw [hM]
    exact Layout.lists_setList_of_ne (L := L) (l := u ++ v) hfree
  have hnew' : ∀ p ∈ M.lists (ListId.ofKey r.key), (M.entry p).key ≠ r.key := by
    intro p hp
    have hpo : p ≠ o := by
      rintro rfl
      rw [hM] at hp
      exact hnot (ListId.ofKey r.key) hp
    have hentry : M.entry p = L.entry p := by
      rw [hM]
      exact Layout.entry_setEntry_of_ne (L := L.setList .free (u ++ v)) hpo
    rw [hentry]
    exact hnew p (hlist ▸ hp)
  have hfiled : M.Filed := by
    rw [hM]
    exact (hW.toFiled.unlink hk).setEntry hnot r
  have hkey : (M.entry o).key = r.key := congrArg Rec.key hself
  have hlists : (L.reused u o v r).lists =
      (M.setList (ListId.ofKey r.key) (o :: M.lists (ListId.ofKey r.key))).lists := by
    rw [hlist, hM]
    rfl
  have hentry : (L.reused u o v r).entry = M.entry := by
    rw [hM]
    rfl
  have hthreads := (hW.threads.unlink hk).push (hW.threads.notMem_unlink hk)
    (fun m heq => hW.threads.anchor_notMem m .free
      (heq ▸ hk ▸ List.mem_append_right u List.mem_cons_self)) (ListId.ofKey r.key)
  have hne := (hW.threads.linkTo_ne hk hfree).2
  rw [Function.update_of_ne hne.symm, Function.update_of_ne hfree] at hthreads
  refine ⟨⟨(hfiled.push hkey hlive hnew').congr hentry hlists, hthreads, ?_⟩, ?_⟩
  · intro p
    have hpush := Threads.exists_mem_push (Function.update L.lists .free (u ++ v))
      (x := o) (k := ListId.ofKey r.key) (y := p)
    rw [Function.update_of_ne hfree] at hpush
    exact (hW.mem_offs p).trans ((Threads.exists_mem_unlink hk).trans hpush.symm)
  · have hget := hfiled.get_push hkey hlive hnew'
    have hMget : M.get = L.get := by
      rw [hM, Layout.get_setEntry hnot, Layout.get_setList_free]
    rw [hself, hMget] at hget
    rw [← hget]
    exact funext fun _ => Layout.get_congr (congrFun hlists _) fun p _ => congrFun hentry p

/-- The greatest size of an index record in its file. -/
def ENTRY_MAX : ℕ := PTR_SZ + IDXLEN_SZ + IDXLEN_MAX

/-- The size of a record in the index file. -/
def Rec.entryLength (r : Rec) : ℕ := PTR_SZ + (IDXLEN_SZ + r.text.length)

/-- There is room for a record at the ends of the files. -/
structure DB.Room (db : DB) (key data : List UInt8) : Prop where
  idx : (db.idx.length : ℤ) ≤ PTR_MAX
  min : IDXLEN_MIN ≤ (Rec.mk key data db.dat.length).text.length
  max : (Rec.mk key data db.dat.length).text.length ≤ IDXLEN_MAX
  dat : db.dat.length + (data.length + 1) ≤ OFF_MAX

/-- A record that there is room for is no larger than the greatest. -/
theorem DB.Room.entryLength_le {db' : DB} (h : db'.Room key data) :
    (Rec.mk key data db'.dat.length).entryLength ≤ ENTRY_MAX := by
  have hmax := h.max
  unfold Rec.entryLength ENTRY_MAX
  omega

/-- The data of a new record are appended. -/
theorem appenddat_step (hF : L.Fits db.idx db.dat)
    (hroom : db.dat.length + (data.length + 1) ≤ OFF_MAX) :
    ∃ db', db_writedat data 0 .SEEK_END db = .ok ((), db') ∧ L.Fits db'.idx db'.dat ∧
      db'.idx = db.idx ∧ db'.dat = db.dat ++ (data ++ [NEWLINE]) ∧ db'.chainoff = db.chainoff ∧
      db'.datoff = db.dat.length ∧ db'.datlen = data.length + 1 := by
  refine ⟨_, appenddat_eq hroom, hF.appendData ?_, rfl, rfl, rfl, rfl, rfl⟩
  rw [List.length_append]
  exact hroom

/-- The index record of data that have been appended is appended. -/
theorem appendidx_step {r : Rec} {p : Option ℕ} (hF : L.Fits db.idx db.dat) (hok : r.Ok)
    (hwin : Window db.dat r.datoff (r.data ++ [NEWLINE]))
    (hapart : ∀ q ∈ L.offs, (L.entry q).datoff + (L.entry q).datlen ≤ r.datoff)
    (hidx : (db.idx.length : ℤ) ≤ PTR_MAX) (hp : ∀ q, p = some q → q ∈ L.offs)
    (hdatoff : db.datoff = r.datoff) (hdatlen : db.datlen = r.datlen) :
    ∃ db', db_writeidx r.key 0 .SEEK_END (p.getD 0 : ℕ) db = .ok ((), db') ∧
      ((L.append db.idx.length r).setNext db.idx.length p).Fits db'.idx db'.dat ∧
      db'.idx.length = db.idx.length + r.entryLength ∧ db'.dat = db.dat ∧
      db'.chainoff = db.chainoff ∧ db'.idxoff = db.idx.length := by
  have hF' := hF.append hok hwin hapart hidx hp
  have hlength : (writeAt db.idx db.idx.length (ptrText p ++ r.body)).length =
      db.idx.length + r.entryLength := by
    rw [writeAt_length, List.length_append, List.length_append, hF.length_ptrText_of hp,
      hok.length_body]
    rfl
  have hend : (Whence.SEEK_END).lseek db.idx.length 0 + (ptrText p ++ r.body).length ≤ OFF_MAX := by
    have hmax := hF'.idx_max
    rw [writeAt_length, List.length_append] at hmax
    exact hmax
  exact ⟨_, writeidx_eq hdatoff hdatlen hok.min hok.max (hF.ptr_le hp) hend, hF', hlength, rfl, rfl,
    rfl⟩

/-- `db_store` appends a record. -/
theorem db_append_spec (hF : L.Fits db.idx db.dat) (hkey : Storable key)
    (hdata : 0 ∉ data) (hdatmax : data.length + 1 ≤ DATLEN_MAX) (hroom : db.Room key data)
    (hchain : db.chainoff = anchor (ListId.ofKey key)) :
    ∃ db', db_append key data ((L.next (anchor (ListId.ofKey key))).getD 0 : ℕ) db =
        .ok ((), db') ∧
      (L.appended db.idx.length ⟨key, data, db.dat.length⟩).Fits db'.idx db'.dat ∧
      db'.idx.length = db.idx.length + (Rec.mk key data db.dat.length).entryLength ∧
      db'.dat.length = db.dat.length + (data.length + 1) := by
  obtain ⟨r, hr⟩ : ∃ r : Rec, r = ⟨key, data, db.dat.length⟩ := ⟨_, rfl⟩
  have hrkey : r.key = key := by rw [hr]
  have hrdata : r.data = data := by rw [hr]
  have hroff : r.datoff = db.dat.length := by rw [hr]
  have hrlen : r.datlen = data.length + 1 := by rw [Rec.datlen, hrdata]
  have hok : r.Ok := by
    rw [hr]
    exact ⟨hkey.sep, hkey.zero, hdata, hroom.min, hroom.max, hdatmax⟩
  have hnext : ∀ p, L.next (anchor (ListId.ofKey key)) = some p → p ∈ L.offs := fun p =>
    hF.next_mem _ p (Or.inl ⟨_, rfl⟩)
  -- The data record.
  obtain ⟨db₁, hrun₁, hF₁, hidx₁, hdat₁, hchain₁, hdatoff₁, hdatlen₁⟩ :=
    appenddat_step hF hroom.dat
  -- The index record: its data are those just written, behind all the others.
  have hwin : Window db₁.dat r.datoff (r.data ++ [NEWLINE]) := by
    rw [hdat₁, hroff, hrdata]
    exact window_append_right _ _
  have hapart : ∀ p ∈ L.offs, (L.entry p).datoff + (L.entry p).datlen ≤ r.datoff := by
    intro p hp
    have hle := (hF.data p hp).add_length_le (by simp)
    rwa [List.length_append, List.length_singleton, ← Rec.datlen, ← hroff] at hle
  obtain ⟨db₂, hrun₂, hF₂, hidx₂, hdat₂, hchain₂, hidxoff₂⟩ :=
    appendidx_step hF₁ hok hwin hapart (by rw [hidx₁]; exact hroom.idx) hnext
      (hdatoff₁.trans hroff.symm) (hdatlen₁.trans hrlen.symm)
  rw [hrkey] at hrun₂
  rw [hidx₁] at hF₂ hidx₂ hidxoff₂
  -- The pointer to the chain.
  obtain ⟨db₃, hrun₃, hF₃, hstays₃⟩ := writeptr_step (p := some db.idx.length)
    (s := anchor (ListId.ofKey key)) hF₂ (Or.inl ⟨_, rfl⟩) (by
      rintro q hq
      obtain rfl := Option.some.inj hq
      exact List.mem_append_right _ (List.mem_singleton_self _))
  refine ⟨db₃, ?_, ?_, ?_, ?_⟩
  · unfold db_append
    rw [bind_ok hrun₁, bind_ok hrun₂, bind_get, hchain₂, hchain₁, hchain, hidxoff₂]
    exact hrun₃
  · have hlayout := hF₃.withLists (L.appended db.idx.length r).lists
    rw [← hr]
    unfold Layout.appended at hlayout ⊢
    rw [hrkey] at hlayout ⊢
    exact hlayout
  · rw [hstays₃.idx_length, hidx₂, ← hr]
  · rw [hstays₃.dat_length, hdat₂, hdat₁, List.length_append, List.length_append,
      List.length_singleton]

/-- `db_store` puts a free record to use, which `_db_findfree` has taken off the free list. -/
theorem db_reuse_spec (hW : L.Wf) (hk : L.lists .free = u ++ o :: v)
    (hF : (L.setNext (linkTo (anchor .free) u) (L.next o)).Fits db.idx db.dat)
    (hkey : Storable key) (hdata : 0 ∉ data)
    (hmatch : (L.entry o).Matches key.length (data.length + 1)) (hidxoff : db.idxoff = o)
    (hdatoff : db.datoff = (L.entry o).datoff) (hchain : db.chainoff = anchor (ListId.ofKey key)) :
    ∃ db', db_reuse key data ((L.next (anchor (ListId.ofKey key))).getD 0 : ℕ) db =
        .ok ((), db') ∧
      (L.reused u o v ⟨key, data, (L.entry o).datoff⟩).Fits db'.idx db'.dat ∧ db.Keeps db' := by
  have hfree := ListId.ofKey_ne_free key
  have ho : o ∈ L.offs := hW.mem_of_eq hk
  have hne := (hW.threads.linkTo_ne hk hfree).2
  have hslot : L.Slot (anchor (ListId.ofKey key)) := Or.inl ⟨_, rfl⟩
  have hnext : ∀ p, L.next (anchor (ListId.ofKey key)) = some p → p ∈ L.offs := by
    intro p hp
    have hmem := hF.next_mem (anchor (ListId.ofKey key)) p hslot
    rw [Layout.next_setNext_of_ne hne.symm] at hmem
    exact hmem hp
  have hdatalen : data.length = (L.entry o).data.length := Nat.succ.inj hmatch.2.symm
  obtain ⟨db₁, hrun₁, hF₁, hkeeps₁, hidxoff₁, hdatoff₁, hdatlen₁⟩ :=
    writedat_step (L := L.setNext (linkTo (anchor .free) u) (L.next o)) hF ho hdatalen hdata
  rw [Layout.entry_setNext] at hrun₁ hdatoff₁ hdatlen₁
  obtain ⟨M, hM⟩ : ∃ M, M = (L.setNext (linkTo (anchor .free) u) (L.next o)).setData o data :=
    ⟨_, rfl⟩
  have hentry : M.entry o = { L.entry o with data := data } := by
    rw [hM]
    exact Layout.entry_setData_self
  rw [← hM] at hF₁
  have hkeylen : key.length = (M.entry o).key.length := by
    rw [hentry]
    exact hmatch.1.symm
  have hdatoff₁' : db₁.datoff = (M.entry o).datoff := by
    rw [hdatoff₁, hentry]
  have hdatlen₁' : db₁.datlen = (M.entry o).datlen := by
    rw [hdatlen₁, hentry, Rec.datlen, Rec.datlen, hdatalen]
  have hoM : o ∈ M.offs := by
    rw [hM]
    exact ho
  obtain ⟨db₂, hrun₂, hF₂, hkeeps₂, hidxoff₂⟩ :=
    writeidx_step (p := L.next (anchor (ListId.ofKey key))) hF₁ hoM hkeylen hkey.sep hkey.zero
      (by rw [hM]; exact hnext) hdatoff₁' hdatlen₁'
  obtain ⟨db₃, hrun₃, hF₃, hstays₃⟩ := writeptr_step (p := some o)
    (s := anchor (ListId.ofKey key)) hF₂ (Or.inl ⟨_, rfl⟩) (by
      rintro q hq
      obtain rfl := Option.some.inj hq
      exact hoM)
  refine ⟨db₃, ?_, ?_, hkeeps₁.trans (hkeeps₂.trans hstays₃.toKeeps)⟩
  · unfold db_reuse
    rw [bind_get, hdatoff, bind_ok hrun₁, bind_get, hidxoff₁, hidxoff, bind_ok hrun₂, bind_get,
      hkeeps₂.chainoff, hkeeps₁.chainoff, hchain, hidxoff₂]
    exact hrun₃
  · have hlayout := hF₃.withLists (L.reused u o v ⟨key, data, (L.entry o).datoff⟩).lists
    unfold Layout.setKey at hlayout
    rw [hentry, hM] at hlayout
    unfold Layout.setNext Layout.setData Layout.setEntry at hlayout
    rw [Function.update_idem] at hlayout
    exact hlayout

end CxxPandora.Apue.Db
