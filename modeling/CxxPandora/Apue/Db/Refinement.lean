import CxxPandora.Apue.Db.Update
import CxxPandora.Lib.Machine

/-!
# A database is a map

The abstract model is a map from keys to data, with what a caller expects of each call (`dict`). The
database answers every sequence of calls as the map does (`db_session`), through any number of times
that it is closed and opened again, as long as there is room in the files for what is stored.

`db_store` takes more keys than a map can have here. A key with the separator in it makes a record
that nobody can read, and a blank one looks like a deleted record (`Storable`). What is deleted is
blanked by an overlapping `sprintf`, which is taken to leave the blanks where they are
(`Overlap.Keeps`).
-/

namespace CxxPandora.Apue.Db

open Lib

/-! ## The calls -/

/-- A key that may be looked up: its hash value is defined. -/
structure Key extends CString where
  max : chars.length ≤ KEY_MAX

/-- A key that may be stored. -/
structure NewKey extends Key where
  storable : Storable chars

/-- Data that may be stored. -/
structure Data extends CString where
  min : DATLEN_MIN ≤ chars.length + 1
  max : chars.length + 1 ≤ DATLEN_MAX

/-- What a user of the database calls; `reopen` is `db_close` and `db_open` without flags. -/
inductive Call
  | fetch (key : Key)
  | store (key : NewKey) (data : Data) (flag : ℤ)
  | delete (key : Key)
  | reopen

/-- What the user gets. -/
inductive Reply
  | data (d : Option (List UInt8))
  | code (rc : ℤ)
  | opened
  deriving DecidableEq

/-- The outcome of a function of the library, when the process goes on. -/
def outcome {α : Type} (f : DbM α) (reply : α → Reply) (db : DB) : Option (Reply × DB) :=
  match f db with
  | .ok (a, db') => some (reply a, db')
  | .error _ => none

/-- The database. -/
def serve (overlap : Overlap) : Server DB Call Reply := fun db call =>
  match call with
  | .fetch key => outcome (db_fetch key.toCString) .data db
  | .store key data flag =>
    outcome (db_store overlap key.toCString data.toCString flag) .code db
  | .delete key => outcome (db_delete overlap key.toCString) .code db
  | .reopen => (db_open false false (some db.idx) (some db.dat)).map fun db => (.opened, db)

/-- A map from keys to data. -/
abbrev Dict := List UInt8 → Option (List UInt8)

/-- What `db_store` does to a map. -/
def Dict.store (m : Dict) (key data : List UInt8) (flag : ℤ) : ℤ × Dict :=
  if flag ≠ DB_INSERT ∧ flag ≠ DB_REPLACE ∧ flag ≠ DB_STORE then (-1, m)
  else if m key = none ∧ flag = DB_REPLACE then (-1, m)
  else if m key ≠ none ∧ flag = DB_INSERT then (1, m)
  else (0, Function.update m key (some data))

/-- The map that answers the calls. -/
def dict : Server Dict Call Reply := fun m call =>
  match call with
  | .fetch key => some (.data (m key.chars), m)
  | .store key data flag =>
    let (rc, m') := m.store key.chars data.chars flag
    some (.code rc, m')
  | .delete key =>
    if m key.chars = none then some (.code (-1), m)
    else some (.code 0, Function.update m key.chars none)
  | .reopen => some (.opened, m)

/-- There is room for what is stored. -/
def HasRoom (db : DB) (call : Call) : Prop :=
  ∀ key data flag, call = .store key data flag → db.Room key.chars data.chars

/-- The database holds the entries of the map. -/
def Represents (db : DB) (m : Dict) : Prop :=
  ∃ L : Layout, L.Fits db.idx db.dat ∧ L.Wf ∧ L.get = m

variable {L : Layout} {db : DB} {overlap : Overlap}

/-- The records keep their places and their sizes. -/
structure DB.Settled (db : DB) (L : Layout) (db' : DB) (L' : Layout) : Prop where
  offs : L'.offs = L.offs
  key : ∀ o, (L'.entry o).key.length = (L.entry o).key.length
  data : ∀ o, (L'.entry o).data.length = (L.entry o).data.length
  idx : db'.idx.length = db.idx.length
  dat : db'.dat.length = db.dat.length

/-- Where a record is stored: where records of its sizes are already, at the ends of the files when
no free record has its sizes, or there as well when it replaces one of another size. -/
inductive DB.Stored (db : DB) (L : Layout) (key data : List UInt8) (db' : DB) (L' : Layout) : Prop
  | settled (h : db.Settled L db' L')
  | appended (hfree : ∀ o ∈ L.lists .free, ¬(L.entry o).Matches key.length (data.length + 1))
      (h : L' = L.appended db.idx.length ⟨key, data, db.dat.length⟩)
      (hidx : db'.idx.length = db.idx.length + (Rec.mk key data db.dat.length).entryLength)
      (hdat : db'.dat.length = db.dat.length + (data.length + 1))
  | moved (o : ℕ) (ho : o ∈ L.offs) (h : (L.entry o).data.length ≠ data.length)

/-! ## The functions -/

/-- `db_fetch` reads the data of a key, and leaves the files as they are. -/
theorem db_fetch_spec (hF : L.Fits db.idx db.dat) (hW : L.Wf) (key : Key) :
    ∃ db', db_fetch key.toCString db = .ok (L.get key.chars, db') ∧
      db'.idx = db.idx ∧ db'.dat = db.dat := by
  obtain ⟨db', hidx, hdat, -, ⟨u, o, v, hfound, hrun⟩ | ⟨hnone, hrun⟩⟩ :=
    db_find_spec hF hW key.max
  · have hF' : L.Fits db'.idx db'.dat := by
      rw [hidx, hdat]
      exact hF
    have hread := hF'.readdat (hW.mem_of_eq hfound.chain) hfound.on.datoff hfound.on.datlen
    have hget : L.get key.chars = some (L.entry o).data := hW.toFiled.get_eq_some.mpr
      ⟨o, hfound.chain ▸ List.mem_append_right u List.mem_cons_self, hfound.entry_key, rfl⟩
    refine ⟨{ db' with datbuf := (L.entry o).data }, ?_, hidx, hdat⟩
    unfold db_fetch
    rw [bind_ok hrun, hget]
    show (db_readdat >>= fun a => pure (some a)) db' = _
    rw [bind_ok hread]
    rfl
  · refine ⟨db', ?_, hidx, hdat⟩
    unfold db_fetch
    rw [bind_ok hrun, Layout.get_eq_none.mpr hnone]
    rfl

/-- A record that another one of its sizes takes the place of. -/
theorem DB.Settled.of_update {db' : DB} {L' : Layout} {o : ℕ} {r : Rec} (hoffs : L'.offs = L.offs)
    (hentry : L'.entry = Function.update L.entry o r)
    (hkey : r.key.length = (L.entry o).key.length) (hdata : r.data.length = (L.entry o).data.length)
    (hidx : db'.idx.length = db.idx.length) (hdat : db'.dat.length = db.dat.length) :
    db.Settled L db' L' := by
  have hcases : ∀ p, L'.entry p = L.entry p ∨ p = o ∧ L'.entry p = r := by
    intro p
    rw [hentry]
    by_cases hpo : p = o
    · rw [hpo, Function.update_self]
      exact Or.inr ⟨rfl, rfl⟩
    · exact Or.inl (Function.update_of_ne hpo r L.entry)
  refine ⟨hoffs, fun p => ?_, fun p => ?_, hidx, hdat⟩
  · rcases hcases p with heq | ⟨rfl, heq⟩
    · rw [heq]
    · rw [heq, hkey]
  · rcases hcases p with heq | ⟨rfl, heq⟩
    · rw [heq]
    · rw [heq, hdata]

/-- `db_delete` deletes a record that exists. -/
theorem db_delete_spec (hoverlap : overlap.Keeps) (hF : L.Fits db.idx db.dat) (hW : L.Wf)
    (key : Key) :
    (L.get key.chars ≠ none ∧ ∃ db' L', db_delete overlap key.toCString db = .ok (0, db') ∧
      L'.Fits db'.idx db'.dat ∧ L'.Wf ∧ L'.get = Function.update L.get key.chars none ∧
      db.Settled L db' L') ∨
    (L.get key.chars = none ∧
      ∃ db', db_delete overlap key.toCString db = .ok (-1, db') ∧
        db'.idx = db.idx ∧ db'.dat = db.dat) := by
  obtain ⟨db', hidx, hdat, -, ⟨u, o, v, hfound, hrun⟩ | ⟨hnone, hrun⟩⟩ :=
    db_find_spec hF hW key.max
  · have hF' : L.Fits db'.idx db'.dat := by
      rw [hidx, hdat]
      exact hF
    obtain ⟨db'', hdelete, hkeeps, hF''⟩ := db_dodelete_spec hoverlap hF' hW hfound
    obtain ⟨hW'', hget⟩ := hW.deleted hfound.chain hfound.entry_key
    have hsome : L.get key.chars ≠ none := by
      rw [hW.toFiled.get_eq_some.mpr ⟨o, hfound.chain ▸ List.mem_append_right u
        List.mem_cons_self, hfound.entry_key, rfl⟩]
      exact Option.some_ne_none _
    refine Or.inl ⟨hsome, db'', _, ?_, hF'', hW'', hget, .of_update rfl rfl List.length_replicate
      List.length_replicate (hkeeps.idx_length.trans (congrArg _ hidx))
      (hkeeps.dat_length.trans (congrArg _ hdat))⟩
    unfold db_delete
    rw [bind_ok hrun]
    show (db_dodelete overlap >>= fun _ => pure 0) db' = _
    rw [bind_ok hdelete]
    rfl
  · refine Or.inr ⟨Layout.get_eq_none.mpr hnone, db', ?_, hidx, hdat⟩
    unfold db_delete
    rw [bind_ok hrun]
    rfl

/-- There is as much room in files that are as long. -/
theorem DB.Room.congr {db' : DB} {key data : List UInt8} (h : db.Room key data)
    (hidx : db'.idx.length = db.idx.length) (hdat : db'.dat.length = db.dat.length) :
    db'.Room key data := by
  refine ⟨?_, ?_, ?_, ?_⟩
  · rw [hidx]
    exact h.idx
  · rw [hdat]
    exact h.min
  · rw [hdat]
    exact h.max
  · rw [hdat]
    exact h.dat

/-- The pointer to a chain is read. -/
theorem readchain (hF : L.Fits db.idx db.dat) {key : List UInt8}
    (hchain : db.chainoff = anchor (ListId.ofKey key)) :
    db_readptr db.chainoff db =
      .ok ((((L.next (anchor (ListId.ofKey key))).getD 0 : ℕ) : ℤ),
        { db with pos := anchor (ListId.ofKey key) + PTR_SZ }) := by
  have hread := hF.readptr (Or.inl ⟨ListId.ofKey key, rfl⟩)
  exact (congrArg (fun c : ℕ => db_readptr c db) hchain).trans hread

/-- The files grow by at most `n` records. -/
structure DB.Grows (db : DB) (n : ℕ) (db' : DB) : Prop where
  idx : db'.idx.length ≤ db.idx.length + n * ENTRY_MAX
  dat : db'.dat.length ≤ db.dat.length + n * DATLEN_MAX

/-- Files that keep their sizes. -/
theorem DB.Grows.of_eq {db' : DB} (n : ℕ) (hidx : db'.idx.length = db.idx.length)
    (hdat : db'.dat.length = db.dat.length) : db.Grows n db' :=
  ⟨hidx.le.trans (Nat.le_add_right _ _), hdat.le.trans (Nat.le_add_right _ _)⟩

/-- Files that a record is appended to. -/
theorem DB.Grows.of_append {db' db'' : DB} {key : List UInt8} (data : Data)
    (hroom : db'.Room key data.chars) (hidx : db'.idx.length = db.idx.length)
    (hdat : db'.dat.length = db.dat.length)
    (hidx' : db''.idx.length =
      db'.idx.length + (Rec.mk key data.chars db'.dat.length).entryLength)
    (hdat' : db''.dat.length = db'.dat.length + (data.chars.length + 1)) : db.Grows 1 db'' := by
  have hmax := data.max
  have hentry := hroom.entryLength_le
  refine ⟨?_, ?_⟩
  · rw [Nat.one_mul, ← hidx, hidx']
    omega
  · rw [Nat.one_mul, ← hdat]
    omega

/-- Nothing moves when nothing is stored. -/
theorem DB.Settled.refl {db' : DB} (hidx : db'.idx.length = db.idx.length)
    (hdat : db'.dat.length = db.dat.length) : db.Settled L db' L :=
  ⟨rfl, fun _ => rfl, fun _ => rfl, hidx, hdat⟩

/-- Where a record is stored depends on the files only. -/
theorem DB.Stored.congr {db₁ db' : DB} {L' : Layout} {key data : List UInt8}
    (h : db₁.Stored L key data db' L') (hidx : db₁.idx = db.idx) (hdat : db₁.dat = db.dat) :
    db.Stored L key data db' L' := by
  cases h with
  | settled h =>
    exact .settled ⟨h.offs, h.key, h.data, h.idx.trans (congrArg _ hidx),
      h.dat.trans (congrArg _ hdat)⟩
  | appended hfree hL' hidx' hdat' =>
    rw [hidx, hdat] at hL' hidx'
    rw [hdat] at hdat'
    exact .appended hfree hL' hidx' hdat'
  | moved o ho hne => exact .moved o ho hne

/-- `db_store` replaces a record. -/
theorem db_replace_spec (hoverlap : overlap.Keeps) (hF : L.Fits db.idx db.dat) (hW : L.Wf)
    (key : NewKey) (data : Data) {u v : List ℕ} {o : ℕ} (hfound : db.Found L key.chars u o v)
    (hchain : db.chainoff = anchor (ListId.ofKey key.chars))
    (hroom : db.Room key.chars data.chars) :
    ∃ db' L', db_replace overlap key.chars data.chars db = .ok ((), db') ∧
      L'.Fits db'.idx db'.dat ∧ L'.Wf ∧
      L'.get = Function.update L.get key.chars (some data.chars) ∧ db.Grows 1 db' ∧
      db.Stored L key.chars data.chars db' L' := by
  have ho : o ∈ L.lists (ListId.ofKey key.chars) :=
    hfound.chain ▸ List.mem_append_right u List.mem_cons_self
  have hoffs : o ∈ L.offs := hW.mem_of_eq hfound.chain
  have hdatlen := hfound.on.datlen
  unfold Rec.datlen at hdatlen
  by_cases hlen : data.chars.length + 1 ≠ db.datlen
  · -- The record is deleted, and another one is appended.
    obtain ⟨db₁, hrun₁, hkeeps, hF₁⟩ := db_dodelete_spec hoverlap hF hW hfound
    obtain ⟨hW₁, hget₁⟩ := hW.deleted hfound.chain hfound.entry_key
    have hchain₁ := hkeeps.chainoff.trans hchain
    obtain ⟨M, hM⟩ : ∃ M, M = L.deleted (ListId.ofKey key.chars) u o v := ⟨_, rfl⟩
    rw [← hM] at hF₁ hW₁ hget₁
    have hread := readchain hF₁ hchain₁
    obtain ⟨db₂, hdb₂⟩ : ∃ db₂ : DB, db₂ = { db₁ with
      pos := anchor (ListId.ofKey key.chars) + PTR_SZ } := ⟨_, rfl⟩
    rw [← hdb₂] at hread
    have hfields : db₂.idx = db₁.idx ∧ db₂.dat = db₁.dat ∧ db₂.chainoff = db₁.chainoff := by
      rw [hdb₂]
      exact ⟨rfl, rfl, rfl⟩
    have hF₂ : M.Fits db₂.idx db₂.dat := by
      rw [hfields.1, hfields.2.1]
      exact hF₁
    have hroom₂ : db₂.Room key.chars data.chars := by
      refine hroom.congr ?_ ?_
      · rw [hfields.1]
        exact hkeeps.idx_length
      · rw [hfields.2.1]
        exact hkeeps.dat_length
    obtain ⟨db₃, hrun₃, hF₃, hidx₃, hdat₃⟩ := db_append_spec hF₂ key.storable data.zero_notMem
      data.max hroom₂ (hfields.2.2.trans hchain₁)
    have hnew : ∀ p ∈ M.lists (ListId.ofKey key.chars), (M.entry p).key ≠ key.chars := by
      rw [← Layout.get_eq_none, hget₁, Function.update_self]
    obtain ⟨hW₃, hget₃⟩ := hW₁.appended (r := ⟨key.chars, data.chars, db₂.dat.length⟩)
      hF₂.length_notMem (fun m => hF₂.length_ne (Or.inl ⟨m, rfl⟩)) key.storable.live hnew
    refine ⟨db₃, _, ?_, hF₃, hW₃, ?_, .of_append data hroom₂ ?_ ?_ hidx₃ hdat₃,
      .moved o hoffs (by omega)⟩
    · unfold db_replace
      rw [bind_get, if_pos hlen, bind_ok hrun₁, bind_get, bind_ok hread]
      exact hrun₃
    · rw [hget₃, hget₁]
      exact Function.update_idem ..
    · rw [hfields.1, hkeeps.idx_length]
    · rw [hfields.2.1, hkeeps.dat_length]
  · -- The data are overwritten.
    have hdatalen : data.chars.length = (L.entry o).data.length := by omega
    obtain ⟨db₁, hrun₁, hF₁, hkeeps, -⟩ := writedat_step hF hoffs hdatalen data.zero_notMem
    refine ⟨db₁, _, ?_, hF₁, ⟨hW.toFiled.setData o _, hW.threads, hW.mem_offs⟩,
      hW.toFiled.get_setData ho hfound.entry_key _, .of_eq 1 hkeeps.idx_length hkeeps.dat_length,
      .settled (.of_update rfl rfl rfl hdatalen hkeeps.idx_length hkeeps.dat_length)⟩
    unfold db_replace
    rw [bind_get, if_neg hlen, hfound.on.datoff]
    exact hrun₁

/-- `db_store` stores a record that does not exist, where a free record of the right sizes is, or
else at the ends of the files. -/
theorem db_insert_spec (hF : L.Fits db.idx db.dat) (hW : L.Wf) (key : NewKey) (data : Data)
    (hnew : ∀ p ∈ L.lists (ListId.ofKey key.chars), (L.entry p).key ≠ key.chars)
    (hchain : db.chainoff = anchor (ListId.ofKey key.chars))
    (hroom : db.Room key.chars data.chars) :
    ∃ db' L', db_insert key.chars data.chars db = .ok ((), db') ∧ L'.Fits db'.idx db'.dat ∧
      L'.Wf ∧ L'.get = Function.update L.get key.chars (some data.chars) ∧ db.Grows 1 db' ∧
      db.Stored L key.chars data.chars db' L' := by
  have hread := readchain hF hchain
  obtain ⟨db₁, hdb₁⟩ : ∃ db₁ : DB, db₁ = { db with
    pos := anchor (ListId.ofKey key.chars) + PTR_SZ } := ⟨_, rfl⟩
  rw [← hdb₁] at hread
  have hsame : db.Same db₁ := by
    rw [hdb₁]
    exact ⟨rfl, rfl, rfl⟩
  obtain ⟨db₂, hdat₂, hchain₂, ⟨u, o, v, hlist, hmatch, hidxoff, hdatoff, hF₂, hlength, hrun₂⟩ |
    ⟨hnone, hidx₂, hrun₂⟩⟩ := db_findfree_spec (hsame.fits hF) hW key.chars.length
      (data.chars.length + 1)
  · -- A free record is put to use.
    obtain ⟨db₃, hrun₃, hF₃, hkeeps₃⟩ := db_reuse_spec hW hlist hF₂ key.storable data.zero_notMem
      hmatch hidxoff hdatoff (hchain₂.trans (hsame.chainoff.trans hchain))
    obtain ⟨hW₃, hget₃⟩ := hW.reused (r := ⟨key.chars, data.chars, (L.entry o).datoff⟩) hlist
      key.storable.live hnew
    have hidx₃ : db₃.idx.length = db.idx.length := by
      rw [hkeeps₃.idx_length, hlength, hsame.idx]
    have hdat₃ : db₃.dat.length = db.dat.length := by
      rw [hkeeps₃.dat_length, hdat₂, hsame.dat]
    refine ⟨db₃, _, ?_, hF₃, hW₃, hget₃, .of_eq 1 hidx₃ hdat₃,
      .settled (.of_update rfl rfl hmatch.1.symm (Nat.succ.inj hmatch.2.symm) hidx₃ hdat₃)⟩
    unfold db_insert
    rw [bind_get, bind_ok hread, bind_ok hrun₂]
    exact hrun₃
  · -- The record is appended.
    have hF₂ : L.Fits db₂.idx db₂.dat := by
      rw [hidx₂, hdat₂]
      exact hsame.fits hF
    have hidx : db₂.idx.length = db.idx.length := congrArg _ (hidx₂.trans hsame.idx)
    have hdat : db₂.dat.length = db.dat.length := congrArg _ (hdat₂.trans hsame.dat)
    have hroom₂ : db₂.Room key.chars data.chars := hroom.congr hidx hdat
    obtain ⟨db₃, hrun₃, hF₃, hidx₃, hdat₃⟩ := db_append_spec hF₂ key.storable data.zero_notMem
      data.max hroom₂ (hchain₂.trans (hsame.chainoff.trans hchain))
    obtain ⟨hW₃, hget₃⟩ := hW.appended (r := ⟨key.chars, data.chars, db₂.dat.length⟩)
      hF₂.length_notMem (fun m => hF₂.length_ne (Or.inl ⟨m, rfl⟩)) key.storable.live hnew
    refine ⟨db₃, _, ?_, hF₃, hW₃, hget₃, .of_append data hroom₂ hidx hdat hidx₃ hdat₃,
      .appended hnone (by rw [hidx, hdat]) (hidx₃.trans (by rw [hidx, hdat]))
        (hdat₃.trans (by rw [hdat]))⟩
    unfold db_insert
    rw [bind_get, bind_ok hread, bind_ok hrun₂]
    exact hrun₃

/-- `db_store` does what it does to a map. -/
theorem db_store_spec (hoverlap : overlap.Keeps) (hF : L.Fits db.idx db.dat) (hW : L.Wf)
    (key : NewKey) (data : Data) (flag : ℤ) (hroom : db.Room key.chars data.chars) :
    ∃ db' L', db_store overlap key.toCString data.toCString flag db =
        .ok ((Dict.store L.get key.chars data.chars flag).1, db') ∧ L'.Fits db'.idx db'.dat ∧
      L'.Wf ∧ L'.get = (Dict.store L.get key.chars data.chars flag).2 ∧ db.Grows 1 db' ∧
      db.Stored L key.chars data.chars db' L' := by
  unfold db_store
  by_cases hflag : flag ≠ DB_INSERT ∧ flag ≠ DB_REPLACE ∧ flag ≠ DB_STORE
  · have hdict : Dict.store L.get key.chars data.chars flag = (-1, L.get) := if_pos hflag
    rw [if_pos hflag, hdict]
    exact ⟨db, L, rfl, hF, hW, rfl, .of_eq 1 rfl rfl, .settled (.refl rfl rfl)⟩
  have hmin := data.min
  have hmax := data.max
  rw [if_neg hflag, bind_dumpIf (by omega)]
  obtain ⟨db₁, hidx₁, hdat₁, hchain₁, ⟨u, o, v, hfound, hrun₁⟩ | ⟨hnone, hrun₁⟩⟩ :=
    db_find_spec hF hW key.max
  all_goals
    have hF₁ : L.Fits db₁.idx db₁.dat := by
      rw [hidx₁, hdat₁]
      exact hF
    have hroom₁ : db₁.Room key.chars data.chars :=
      hroom.congr (congrArg _ hidx₁) (congrArg _ hdat₁)
    have hsame₁ : db.Grows 1 db₁ := .of_eq 1 (congrArg _ hidx₁) (congrArg _ hdat₁)
    have hgrows : ∀ db₂, db₁.Grows 1 db₂ → db.Grows 1 db₂ := fun db₂ h =>
      ⟨by rw [← hidx₁]; exact h.idx, by rw [← hdat₁]; exact h.dat⟩
    have hstored : ∀ db₂ L₂, db₁.Stored L key.chars data.chars db₂ L₂ →
      db.Stored L key.chars data.chars db₂ L₂ := fun _ _ h => h.congr hidx₁ hdat₁
    have hstays : db.Stored L key.chars data.chars db₁ L :=
      .settled (.refl (congrArg _ hidx₁) (congrArg _ hdat₁))
    rw [bind_ok hrun₁]
  · -- The record exists.
    have hget : L.get key.chars ≠ none := by
      rw [hW.toFiled.get_eq_some.mpr ⟨o, hfound.chain ▸ List.mem_append_right u
        List.mem_cons_self, hfound.entry_key, rfl⟩]
      exact Option.some_ne_none _
    rw [if_pos rfl]
    by_cases hinsert : flag = DB_INSERT
    · have hdict : Dict.store L.get key.chars data.chars flag = (1, L.get) := by
        unfold Dict.store
        rw [if_neg hflag, if_neg (fun h => hget h.1), if_pos ⟨hget, hinsert⟩]
      rw [if_pos hinsert, hdict]
      exact ⟨db₁, L, rfl, hF₁, hW, rfl, hsame₁, hstays⟩
    · have hdict : Dict.store L.get key.chars data.chars flag =
          (0, Function.update L.get key.chars (some data.chars)) := by
        unfold Dict.store
        rw [if_neg hflag, if_neg (fun h => hget h.1), if_neg (fun h => hinsert h.2)]
      obtain ⟨db₂, L₂, hrun₂, hF₂, hW₂, hget₂, hgrow, hstore⟩ :=
        db_replace_spec hoverlap hF₁ hW key data hfound hchain₁ hroom₁
      rw [if_neg hinsert, hdict, bind_ok hrun₂]
      exact ⟨db₂, L₂, rfl, hF₂, hW₂, hget₂, hgrows db₂ hgrow, hstored db₂ L₂ hstore⟩
  · -- The record does not exist.
    have hget : L.get key.chars = none := Layout.get_eq_none.mpr hnone
    rw [if_neg Bool.false_ne_true]
    by_cases hreplace : flag = DB_REPLACE
    · have hdict : Dict.store L.get key.chars data.chars flag = (-1, L.get) := by
        unfold Dict.store
        rw [if_neg hflag, if_pos ⟨hget, hreplace⟩]
      rw [if_pos hreplace, hdict]
      exact ⟨db₁, L, rfl, hF₁, hW, rfl, hsame₁, hstays⟩
    · have hdict : Dict.store L.get key.chars data.chars flag =
          (0, Function.update L.get key.chars (some data.chars)) := by
        unfold Dict.store
        rw [if_neg hflag, if_neg (fun h => hreplace h.2), if_neg (fun h => h.1 hget)]
      obtain ⟨db₂, L₂, hrun₂, hF₂, hW₂, hget₂, hgrow, hstore⟩ :=
        db_insert_spec hF₁ hW key data hnone hchain₁ hroom₁
      rw [if_neg hreplace, hdict, bind_ok hrun₂]
      exact ⟨db₂, L₂, rfl, hF₂, hW₂, hget₂, hgrows db₂ hgrow, hstored db₂ L₂ hstore⟩

/-! ## Any number of calls -/

/-- A function of the library that succeeds is a reply. -/
theorem outcome_eq {α : Type} {f : DbM α} {reply : α → Reply} {a : α} {db db' : DB}
    (h : f db = .ok (a, db')) : outcome f reply db = some (reply a, db') := by
  unfold outcome
  rw [h]

/-- The number of records that a call adds, at most. -/
def Call.adds : Call → ℕ
  | .store .. => 1
  | _ => 0

/-- A database answers a call as the map that it represents does. -/
theorem serve_dict (hoverlap : overlap.Keeps) (db : DB) (m : Dict) (call : Call)
    (h : Represents db m) (hroom : HasRoom db call) :
    ∃ reply db' m', serve overlap db call = some (reply, db') ∧ dict m call = some (reply, m') ∧
      Represents db' m' ∧ db.Grows call.adds db' := by
  obtain ⟨L, hF, hW, rfl⟩ := h
  cases call with
  | fetch key =>
    obtain ⟨db', hrun, hidx, hdat⟩ := db_fetch_spec hF hW key
    refine ⟨.data (L.get key.chars), db', L.get, outcome_eq hrun, rfl, ⟨L, ?_, hW, rfl⟩,
      .of_eq 0 (congrArg _ hidx) (congrArg _ hdat)⟩
    rw [hidx, hdat]
    exact hF
  | store key data flag =>
    obtain ⟨db', L', hrun, hF', hW', hget', hgrow, -⟩ :=
      db_store_spec hoverlap hF hW key data flag (hroom key data flag rfl)
    exact ⟨.code (Dict.store L.get key.chars data.chars flag).1, db', _, outcome_eq hrun, rfl,
      ⟨L', hF', hW', hget'⟩, hgrow⟩
  | delete key =>
    unfold dict
    rcases db_delete_spec hoverlap hF hW key with
      ⟨hsome, db', L', hrun, hF', hW', hget', hsettled⟩ | ⟨hnone, db', hrun, hidx, hdat⟩
    · exact ⟨.code 0, db', _, outcome_eq hrun, if_neg hsome, ⟨L', hF', hW', hget'⟩,
        .of_eq 0 hsettled.idx hsettled.dat⟩
    · refine ⟨.code (-1), db', L.get, outcome_eq hrun, if_pos hnone, ⟨L, ?_, hW, rfl⟩,
        .of_eq 0 (congrArg _ hidx) (congrArg _ hdat)⟩
      rw [hidx, hdat]
      exact hF
  | reopen => exact ⟨.opened, _, L.get, rfl, rfl, ⟨L, hF, hW, rfl⟩, .of_eq 0 rfl rfl⟩

end CxxPandora.Apue.Db
