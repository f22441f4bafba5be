import CxxPandora.Apue.Db.Refinement

/-!
# Sessions with a database

A database that has just been created holds nothing (`represents_new`), and so every session with it
is one with an empty map (`db_session`).
-/

namespace CxxPandora.Apue.Db

open Lib

/-! ## A new database -/

/-- The layout of a new database. -/
def Layout.empty : Layout := ⟨[], fun _ => ⟨[], [], 0⟩, fun _ => none, fun _ => []⟩

/-- The files of a new database. -/
theorem fits_empty : Layout.empty.Fits initIdx [] := by
  have hinit : initIdx = (List.replicate (NHASH_DEF + 1) (ptrText none)).flatten ++ [NEWLINE] := rfl
  have hlength : initIdx.length = idxStart := by
    rw [hinit, List.length_append, length_flatten_replicate]
    rfl
  refine ⟨?_, fun _ ho => absurd ho List.not_mem_nil, ?_, fun _ ho => absurd ho List.not_mem_nil,
    fun _ ho => absurd ho List.not_mem_nil, fun _ ho => absurd ho List.not_mem_nil,
    fun _ p _ hp => absurd hp.symm (Option.some_ne_none p),
    fun _ ho => absurd ho List.not_mem_nil, ?_, ?_⟩
  · rintro s (⟨k, rfl⟩ | hs)
    · exact window_flatten_replicate k.isLt (ptrText none) [NEWLINE]
    · exact absurd hs List.not_mem_nil
  · exact hlength.symm
  · rw [hlength]
    decide
  · exact Nat.zero_le _

/-- A new database has no records. -/
theorem wf_empty : Layout.empty.Wf where
  blank := fun _ ho => absurd ho List.not_mem_nil
  chain := fun _ _ _ ho => absurd ho List.not_mem_nil
  live := fun _ _ _ ho => absurd ho List.not_mem_nil
  unique := fun _ _ _ _ ho => absurd ho List.not_mem_nil
  nodup := fun _ => List.nodup_nil
  threads := {
    seg := fun _ => rfl
    disjoint := fun _ _ _ hx => absurd hx List.not_mem_nil
    anchor_inj := anchor_injective
    anchor_notMem := fun _ _ => List.not_mem_nil }
  mem_offs := fun _ => iff_of_false List.not_mem_nil fun ⟨_, ho⟩ => absurd ho List.not_mem_nil

/-- `db_open` that creates and truncates makes new files, whatever was there. -/
theorem open_new (idx dat : Option (List UInt8)) :
    ∃ db, db_open true true idx dat = some db ∧ db.idx = initIdx ∧ db.dat = [] := by
  have hopen : ∀ file, openFile true true file = some [] := fun file => by cases file <;> rfl
  refine ⟨_, by unfold db_open; rw [hopen, hopen]; rfl, rfl, rfl⟩

/-- A new database has no entries. -/
theorem represents_new (idx dat : Option (List UInt8)) :
    ∃ db, db_open true true idx dat = some db ∧ db.idx.length = idxStart ∧ db.dat.length = 0 ∧
      Represents db fun _ => none := by
  obtain ⟨db, hopen, hidx, hdat⟩ := open_new idx dat
  have hfits : Layout.empty.Fits db.idx db.dat := by
    rw [hidx, hdat]
    exact fits_empty
  exact ⟨db, hopen, hfits.laid.symm, by rw [hdat]; rfl, Layout.empty, hfits, wf_empty, rfl⟩

/-! ## Sessions -/

/-- The length of the key that a call stores. -/
def Call.keyLength : Call → ℕ
  | .store key _ _ => key.chars.length
  | _ => 0

variable {overlap : Overlap}

/-- A key that is not blank has a character. -/
theorem Storable.length_pos {key : List UInt8} (h : Storable key) : 0 < key.length := by
  rw [List.length_pos_iff]
  rintro rfl
  exact h.live fun _ hc => absurd hc List.not_mem_nil

/-- There is room for a record when neither its key is long nor the files are. -/
theorem DB.room_of_le {db : DB} (key : NewKey) (data : Data) (hkey : key.chars.length ≤ 1000)
    (hidx : (db.idx.length : ℤ) ≤ PTR_MAX) (hdat : db.dat.length + DATLEN_MAX < 10^10) :
    db.Room key.chars data.chars := by
  have hpos := key.storable.length_pos
  have hmax := data.max
  unfold DATLEN_MAX at hdat hmax
  have hoff : (decimal db.dat.length).length ≤ 10 := length_decimal_le (by decide) (by omega)
  have hlen : (decimal (data.chars.length + 1)).length ≤ 4 :=
    length_decimal_le (by decide) (by omega)
  have hoff' := List.length_pos_of_ne_nil (decimal_ne_nil db.dat.length)
  have hlen' := List.length_pos_of_ne_nil (decimal_ne_nil (data.chars.length + 1))
  have htext : (Rec.mk key.chars data.chars db.dat.length).text.length = key.chars.length +
      (decimal db.dat.length).length + (decimal (data.chars.length + 1)).length + 3 :=
    Rec.length_text _
  refine ⟨hidx, ?_, ?_, ?_⟩
  · rw [htext]
    unfold IDXLEN_MIN
    omega
  · rw [htext]
    unfold IDXLEN_MAX
    omega
  · unfold OFF_MAX
    omega

/-- There is room for everything that is stored in a session with short keys, when there is room for
as many records of the greatest size. -/
theorem guarded_of_few (hoverlap : overlap.Keeps) {db : DB} {m : Dict} {calls : List Call}
    (hrep : Represents db m) (hkeys : ∀ call ∈ calls, call.keyLength ≤ 1000)
    (hidx : ((db.idx.length + (calls.map Call.adds).sum * ENTRY_MAX : ℕ) : ℤ) ≤ PTR_MAX)
    (hdat : db.dat.length + (calls.map Call.adds).sum * DATLEN_MAX < 10^10) :
    (serve overlap).Guarded HasRoom db calls := by
  induction calls generalizing db m with
  | nil => trivial
  | cons call calls ih =>
    rw [List.map_cons, List.sum_cons, Nat.add_mul] at hidx hdat
    have hroom : HasRoom db call := by
      rintro key data flag rfl
      have hadds : (Call.store key data flag).adds = 1 := rfl
      rw [hadds, Nat.one_mul] at hdat
      exact db.room_of_le key data (hkeys _ List.mem_cons_self) (by omega) (by omega)
    refine ⟨hroom, fun reply db' hcall => ?_⟩
    obtain ⟨reply', db'', m', hserve, -, hrep', hgrow⟩ := serve_dict hoverlap db m call hrep hroom
    obtain ⟨-, rfl⟩ := Prod.mk.inj (Option.some.inj (hcall.symm.trans hserve))
    have hidx' := hgrow.idx
    have hdat' := hgrow.dat
    exact ih hrep' (fun c hc => hkeys c (List.mem_cons_of_mem call hc)) (by omega) (by omega)

/-- A session with a new database, with the layout that it ends with. -/
theorem session_represents (hoverlap : overlap.Keeps) {idx dat : Option (List UInt8)} {db : DB}
    (hopen : db_open true true idx dat = some db) {calls : List Call}
    (hroom : (serve overlap).Guarded HasRoom db calls) :
    ∃ replies db' m, (serve overlap).session db calls = some (replies, db') ∧
      dict.session (fun _ => none) calls = some (replies, m) ∧ Represents db' m := by
  obtain ⟨db₀, hopen₀, -, -, hrep⟩ := represents_new idx dat
  obtain rfl := Option.some.inj (hopen.symm.trans hopen₀)
  refine Server.session_eq (fun db m call hrep hroom _ => ?_) hrep hroom
    (.of_forall (G := fun _ _ => True) (fun _ _ => trivial) calls _)
  obtain ⟨reply, db', m', hserve, hdict, hrep', -⟩ := serve_dict hoverlap db m call hrep hroom
  exact ⟨reply, db', m', hserve, hdict, hrep'⟩

/-- A database that has been created answers the calls of a session as a map does. -/
theorem db_session (hoverlap : overlap.Keeps) {idx dat : Option (List UInt8)} {db : DB}
    (hopen : db_open true true idx dat = some db) {calls : List Call}
    (hroom : (serve overlap).Guarded HasRoom db calls) :
    ∃ replies db' m, (serve overlap).session db calls = some (replies, db') ∧
      dict.session (fun _ => none) calls = some (replies, m) := by
  obtain ⟨replies, db', m, hserve, hdict, -⟩ := session_represents hoverlap hopen hroom
  exact ⟨replies, db', m, hserve, hdict⟩

/-! ## Two letters -/

/-- A key of one letter. -/
def letterKey (c : UInt8) (h : SEP ≠ c ∧ 0 ≠ c ∧ c ≠ SPACE) : NewKey where
  chars := [c]
  zero_notMem := fun hc => h.2.1 (List.mem_singleton.mp hc)
  max := (by decide : 1 ≤ KEY_MAX)
  storable := {
    sep := fun hc => h.1 (List.mem_singleton.mp hc)
    zero := fun hc => h.2.1 (List.mem_singleton.mp hc)
    live := fun hblank => h.2.2 (hblank c List.mem_cons_self) }

/-- Data of one letter. -/
def letterData (c : UInt8) (h : 0 ≠ c) : Data where
  chars := [c]
  zero_notMem := fun hc => h (List.mem_singleton.mp hc)
  min := (by decide : DATLEN_MIN ≤ 2)
  max := (by decide : 2 ≤ DATLEN_MAX)

/-- The record of `a` is stored, read, and deleted, and that of `b` is stored. -/
def lettersInTurn : List Call :=
  [.store (letterKey 97 (by decide)) (letterData 120 (by decide)) DB_INSERT, .reopen,
    .fetch (letterKey 97 (by decide)).toKey, .delete (letterKey 97 (by decide)).toKey,
    .store (letterKey 98 (by decide)) (letterData 121 (by decide)) DB_STORE,
    .fetch (letterKey 97 (by decide)).toKey]

/-- A `sprintf` that stores character after character. -/
theorem keeps_some : Overlap.Keeps some := fun _ => rfl

/-- There is room for them in a new database. -/
theorem guarded_lettersInTurn {db : DB} (hidx : db.idx.length = idxStart) (hdat : db.dat.length = 0)
    (hrep : Represents db fun _ => none) : (serve some).Guarded HasRoom db lettersInTurn := by
  refine guarded_of_few keeps_some hrep ?_ ?_ ?_
  · simp [lettersInTurn, Call.keyLength, letterKey]
  · rw [hidx]
    decide
  · rw [hdat]
    decide

/-- They are answered as a map answers them. -/
theorem db_session_letters :
    ∃ db db', db_open true true none none = some db ∧ (serve some).session db lettersInTurn =
      some ([.code 0, .opened, .data (some [120]), .code 0, .code 0, .data none], db') := by
  obtain ⟨db, hopen, hidx, hdat, hrep⟩ := represents_new none none
  obtain ⟨replies, db', m, hserve, hdict⟩ :=
    db_session keeps_some hopen (guarded_lettersInTurn hidx hdat hrep)
  have hreplies : (dict.session (fun _ => none) lettersInTurn).map Prod.fst =
      some [.code 0, .opened, .data (some [120]), .code 0, .code 0, .data none] := rfl
  rw [hdict] at hreplies
  obtain rfl : replies = _ := Option.some.inj hreplies
  exact ⟨db, db', hopen, hserve⟩

end CxxPandora.Apue.Db
