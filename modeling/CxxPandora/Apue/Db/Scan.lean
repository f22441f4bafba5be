import CxxPandora.Apue.Db.Session

/-!
# Reading a whole database

`db_nextrec` goes through the index file from where `db_rewind` has put it, and passes over the
records that have been deleted. The calls that follow a `db_rewind` return each entry of the map
once, in the order in which the records are laid out, and `NULL` from then on (`nextrecs_spec`).
-/

namespace CxxPandora.Apue.Db

open Lib

variable {L : Layout} {db : DB} {o : ℕ} {v : List ℕ}

/-- `n` calls of `db_nextrec`. -/
def nextrecs : ℕ → DbM (List (Option (List UInt8 × List UInt8)))
  | 0 => return []
  | n + 1 => do
    let entry ← db_nextrec
    return entry :: (← nextrecs n)

/-- Whether a record is in use: its key is not all spaces. -/
def Layout.inUse (L : Layout) (o : ℕ) : Bool := !(L.entry o).key.all (· == SPACE)

/-- The key and the data of a record. -/
def Layout.row (L : Layout) (o : ℕ) : List UInt8 × List UInt8 := ((L.entry o).key, (L.entry o).data)

/-- The index file is positioned in front of the records `v`, the last ones. -/
structure DB.InFront (db : DB) (L : Layout) (v : List ℕ) : Prop where
  suffix : v <:+ L.offs
  laid : LaidOut L.size db.pos v db.idx.length

/-- A record is in use when its key is not blank. -/
theorem Layout.inUse_iff : L.inUse o = true ↔ ¬Blank (L.entry o).key := by
  unfold Layout.inUse Blank
  simp only [Bool.not_eq_true', List.all_eq_false, beq_iff_eq]
  push Not
  rfl

/-! ## The loop -/

/-- At the end of the index file there is no record. -/
theorem readidx_end (h : db.pos = db.idx.length) :
    db_readidx 0 db = .ok (-1, { db with idxoff := db.pos }) := by
  have hread : readIdx (PTR_SZ + IDXLEN_SZ) { db with idxoff := db.pos } =
      .ok ([], { db with idxoff := db.pos }) := by
    unfold readIdx
    rw [bind_get, readAt_of_length_le h.ge]
    rfl
  unfold db_readidx
  rw [bind_ok (show seekRecord 0 db = .ok ((), db) from rfl), bind_modify, bind_ok hread]
  rfl

/-- The loop of `db_nextrec` returns the next record that is in use, and stops behind it. -/
theorem nextLoop_spec (hF : L.Fits db.idx db.dat) {n : ℕ} (hn : v.length < n)
    (h : db.InFront L v) :
    ∃ db' w, db.Same db' ∧ db'.InFront L w ∧
      ((v.filter L.inUse = [] ∧ w.filter L.inUse = [] ∧ nextLoop n db = .ok (none, db')) ∨
        ∃ o, v.filter L.inUse = o :: w.filter L.inUse ∧
          nextLoop n db = .ok (some (L.row o), db')) := by
  induction v generalizing n db with
  | nil =>
    obtain ⟨n, rfl⟩ := Nat.exists_eq_add_of_lt hn
    refine ⟨{ db with idxoff := db.pos }, [], ⟨rfl, rfl, rfl⟩, ⟨h.suffix, h.laid⟩,
      Or.inl ⟨rfl, rfl, ?_⟩⟩
    unfold nextLoop
    rw [bind_ok (readidx_end h.laid)]
    rfl
  | cons o v ih =>
    obtain ⟨n, rfl⟩ := Nat.exists_eq_add_of_lt (Nat.zero_lt_of_lt hn)
    have ho : o ∈ L.offs := h.suffix.subset List.mem_cons_self
    obtain ⟨hpos, hlaid⟩ := h.laid
    have hread := hF.readidx ho (Or.inr ⟨rfl, hpos.symm⟩)
    have hon := DB.on_onRec db L o
    have hsame := DB.Same.onRec db L o
    have hfront : (db.onRec L o).InFront L v := by
      refine ⟨(List.suffix_cons o v).trans h.suffix, ?_⟩
      rw [hsame.idx]
      unfold DB.onRec
      exact hpos ▸ hlaid
    obtain ⟨db₁, hdb₁⟩ : ∃ db₁, db₁ = db.onRec L o := ⟨_, rfl⟩
    rw [← hdb₁] at hread hon hsame hfront
    have hF₁ := hsame.fits hF
    have hnonneg : ¬(((L.next o).getD 0 : ℕ) : ℤ) < 0 := by omega
    rw [Nat.zero_add]
    unfold nextLoop
    rw [bind_ok hread, if_neg hnonneg, bind_get, hon.idxbuf]
    cases huse : (L.entry o).key.all (· == SPACE) with
    | true =>
      -- A deleted record is passed over.
      obtain ⟨db', w, hsame', hfront', hcases⟩ :=
        ih hF₁ (n := n) (by rw [List.length_cons] at hn; omega) hfront
      have hfilter : (o :: v).filter L.inUse = v.filter L.inUse :=
        List.filter_cons_of_neg (by unfold Layout.inUse; rw [huse]; decide)
      rw [hfilter, if_pos rfl]
      exact ⟨db', w, hsame.trans hsame', hfront', hcases⟩
    | false =>
      have hfilter : (o :: v).filter L.inUse = o :: v.filter L.inUse :=
        List.filter_cons_of_pos (by unfold Layout.inUse; rw [huse]; rfl)
      have hdata := hF₁.readdat ho hon.datoff hon.datlen
      refine ⟨{ db₁ with datbuf := (L.entry o).data }, v, hsame.trans ⟨rfl, rfl, rfl⟩,
        ⟨hfront.suffix, hfront.laid⟩, Or.inr ⟨o, hfilter, ?_⟩⟩
      rw [if_neg Bool.false_ne_true, bind_ok hdata]
      rfl

/-- As many calls as there are records in use, and any number more. -/
theorem nextrecs_spec (hF : L.Fits db.idx db.dat) {us : List ℕ} (j : ℕ)
    (hus : v.filter L.inUse = us) (h : db.InFront L v) :
    ∃ db', db.Same db' ∧ nextrecs (us.length + j) db =
      .ok (us.map (fun o => some (L.row o)) ++ List.replicate j none, db') := by
  have hlength : ∀ (db : DB) (v : List ℕ), db.InFront L v → v.length < db.idx.length + 1 := by
    intro db v h
    have hsize : ∀ o ∈ v, 0 < L.size o := fun o _ => Nat.add_pos_left (by decide) _
    have hle := h.laid.add_length_le hsize
    omega
  have hcall := fun (db : DB) (v : List ℕ) (hF : L.Fits db.idx db.dat) (h : db.InFront L v) =>
    nextLoop_spec hF (hlength db v h) h
  induction us generalizing db v with
  | cons o us ih =>
    obtain ⟨db₁, w, hsame, hfront, ⟨hnil, -, -⟩ | ⟨o', hcons, hrun⟩⟩ := hcall db v hF h
    · exact absurd (hus.symm.trans hnil) (List.cons_ne_nil o us)
    obtain ⟨rfl, hw⟩ := List.cons.inj (hus.symm.trans hcons)
    obtain ⟨db', hsame', hrest⟩ := ih (hsame.fits hF) hw.symm hfront
    refine ⟨db', hsame.trans hsame', ?_⟩
    rw [List.length_cons, Nat.add_right_comm]
    have hrec : db_nextrec db = .ok (some (L.row o), db₁) := hrun
    unfold nextrecs
    rw [bind_ok hrec, bind_ok hrest]
    rfl
  | nil =>
    induction j generalizing db v with
    | zero => exact ⟨db, ⟨rfl, rfl, rfl⟩, rfl⟩
    | succ j ih =>
      obtain ⟨db₁, w, hsame, hfront, ⟨-, hw, hrun⟩ | ⟨o', hcons, -⟩⟩ := hcall db v hF h
      · obtain ⟨db', hsame', hrest⟩ := ih (hsame.fits hF) hw hfront
        refine ⟨db', hsame.trans hsame', ?_⟩
        have hrec : db_nextrec db = .ok (none, db₁) := hrun
        rw [← Nat.add_assoc]
        unfold nextrecs
        rw [bind_ok hrec, bind_ok hrest]
        rfl
      · exact absurd (hcons.symm.trans hus) (List.cons_ne_nil o' _)

/-! ## The entries -/

/-- The entries of a map, each of them once. -/
structure Dict.Listing (m : Dict) (entries : List (List UInt8 × List UInt8)) : Prop where
  nodup : (entries.map Prod.fst).Nodup
  mem : ∀ key data, (key, data) ∈ entries ↔ m key = some data

/-- A record in use is on the chain of its key. -/
theorem Layout.Wf.mem_chain (hW : L.Wf) (ho : o ∈ L.offs.filter L.inUse) :
    o ∈ L.lists (ListId.ofKey (L.entry o).key) := by
  obtain ⟨hoffs, huse⟩ := List.mem_filter.mp ho
  obtain ⟨k, hk⟩ := (hW.mem_offs o).mp hoffs
  have hne : k ≠ ListId.free := by
    rintro rfl
    exact Layout.inUse_iff.mp huse (hW.blank o hk)
  rw [← hW.chain k o hne hk]
  exact hk

/-- The records in use are the entries of the map. -/
theorem Layout.Wf.listing (hF : L.Fits db.idx db.dat) (hW : L.Wf) :
    Dict.Listing L.get ((L.offs.filter L.inUse).map L.row) := by
  constructor
  · have hsize : ∀ o ∈ L.offs, 0 < L.size o := fun o _ => Nat.add_pos_left (by decide) _
    rw [List.map_map]
    refine List.Nodup.map_on (fun o ho p hp heq => ?_) ((hF.laid.nodup hsize).filter _)
    have hkey : (L.entry o).key = (L.entry p).key := heq
    exact hW.unique _ o p (ListId.ofKey_ne_free _) (hW.mem_chain ho) (hkey ▸ hW.mem_chain hp) hkey
  · intro key data
    rw [hW.toFiled.get_eq_some, List.mem_map]
    constructor
    · rintro ⟨o, ho, hrow⟩
      obtain ⟨hkey, hdata⟩ := Prod.mk.inj hrow
      exact ⟨o, hkey ▸ hW.mem_chain ho, hkey, hdata⟩
    · rintro ⟨o, ho, hkey, hdata⟩
      have hlive := hW.live _ o (ListId.ofKey_ne_free key) ho
      exact ⟨o, List.mem_filter.mpr ⟨(hW.mem_offs o).mpr ⟨_, ho⟩, Layout.inUse_iff.mpr hlive⟩,
        Prod.ext hkey hdata⟩

/-- The calls of `db_nextrec` after a `db_rewind` return the entries of the map that the database
represents, and then `NULL`; the files stay as they are. -/
theorem Represents.scan {m : Dict} (h : Represents db m) :
    ∃ entries, Dict.Listing m entries ∧
      ∀ j, ∃ db', (db_rewind >>= fun _ => nextrecs (entries.length + j)) db =
        .ok (entries.map some ++ List.replicate j none, db') ∧ db.Same db' := by
  obtain ⟨L, hF, hW, rfl⟩ := h
  refine ⟨_, hW.listing hF, fun j => ?_⟩
  have hfront : DB.InFront { db with pos := idxStart, idxoff := idxStart } L L.offs :=
    ⟨List.suffix_refl L.offs, hF.laid⟩
  have hfits : L.Fits ({ db with pos := idxStart, idxoff := idxStart } : DB).idx db.dat := hF
  obtain ⟨db', hsame, hrun⟩ := nextrecs_spec hfits j rfl hfront
  refine ⟨db', ?_, hsame.idx, hsame.dat, hsame.chainoff⟩
  rw [List.length_map, List.map_map]
  exact hrun

/-- After any session with a new database, reading the whole of it returns each entry of the map
that the session makes, once, and nothing else. -/
theorem scan_session {overlap : Overlap} (hoverlap : overlap.Keeps)
    {idx dat : Option (List UInt8)} {db : DB} (hopen : db_open true true idx dat = some db)
    {calls : List Call} (hroom : (serve overlap).Guarded HasRoom db calls) :
    ∃ replies db₁ m entries, (serve overlap).session db calls = some (replies, db₁) ∧
      dict.session (fun _ => none) calls = some (replies, m) ∧ Dict.Listing m entries ∧
      ∀ j, ∃ db', (db_rewind >>= fun _ => nextrecs (entries.length + j)) db₁ =
        .ok (entries.map some ++ List.replicate j none, db') ∧ db₁.Same db' := by
  obtain ⟨replies, db₁, m, hserve, hdict, hrep⟩ := session_represents hoverlap hopen hroom
  obtain ⟨entries, hlisting, hscan⟩ := hrep.scan
  exact ⟨replies, db₁, m, entries, hserve, hdict, hlisting, hscan⟩

/-- A database whose first record has been deleted lists the second one. -/
theorem scan_session_letters :
    ∃ db replies db₁ m entries, db_open true true none none = some db ∧
      (serve some).session db lettersInTurn = some (replies, db₁) ∧
      dict.session (fun _ => none) lettersInTurn = some (replies, m) ∧ Dict.Listing m entries ∧
      ∀ j, ∃ db', (db_rewind >>= fun _ => nextrecs (entries.length + j)) db₁ =
        .ok (entries.map some ++ List.replicate j none, db') ∧ db₁.Same db' := by
  obtain ⟨db, hopen, hidx, hdat, hrep⟩ := represents_new none none
  obtain ⟨replies, db₁, m, entries, h⟩ :=
    scan_session keeps_some hopen (guarded_lettersInTurn hidx hdat hrep)
  exact ⟨db, replies, db₁, m, entries, hopen, h⟩

end CxxPandora.Apue.Db
