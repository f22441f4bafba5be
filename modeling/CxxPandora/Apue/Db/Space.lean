import CxxPandora.Apue.Db.Scan
import Mathlib.Data.Set.Card

/-!
# The space that a database takes

The place of a deleted record is used again for a record of the same sizes. So when all keys have
one length and all data have one length, the files are no larger than with the greatest number of
entries at one time, stored one after the other in new files (`idxSize`), however many records are
stored and deleted (`space_session`). The invariant is `Layout.Uniform`; a record is appended only
when the free list is empty, and then all the others are entries (`Layout.Wf.length_offs`).
-/

namespace CxxPandora.Apue.Db

open Lib

variable {L L' : Layout} {db db' : DB} {a b n : ℕ} {overlap : Overlap}

/-- The map has at most `n` entries. -/
def Dict.AtMost (m : Dict) (n : ℕ) : Prop := {key | m key ≠ none}.encard ≤ n

/-- A call only stores records of the given sizes. -/
def Call.Sized (a b : ℕ) : Call → Prop
  | .store key data _ => key.chars.length = a ∧ data.chars.length = b
  | _ => True

/-- A call leaves at most `n` entries. -/
def LeavesAtMost (n : ℕ) (m : Dict) (call : Call) : Prop :=
  ∀ reply m', dict m call = some (reply, m') → Dict.AtMost m' n

/-- The size in the index file of a record with a key of length `a` and data of length `b`, in front
of which there are `i` such records. -/
def entrySize (a b i : ℕ) : ℕ :=
  PTR_SZ + (IDXLEN_SZ +
    (a + (decimal (i * (b + 1))).length + (decimal (b + 1)).length + 3))

/-- The size of the index file with `n` such records. -/
def idxSize (a b : ℕ) : ℕ → ℕ
  | 0 => idxStart
  | n + 1 => idxSize a b n + entrySize a b n

/-- More records take more. -/
theorem idxSize_mono {m : ℕ} (h : m ≤ n) : idxSize a b m ≤ idxSize a b n :=
  monotone_nat_of_le_succ (f := idxSize a b) (fun _ => Nat.le_add_right _ _) h

/-- All records have the given sizes, and fill the two files. -/
structure Layout.Uniform (L : Layout) (a b : ℕ) (db : DB) : Prop where
  key : ∀ o ∈ L.offs, (L.entry o).key.length = a
  data : ∀ o ∈ L.offs, (L.entry o).data.length = b
  idx : db.idx.length = idxSize a b L.offs.length
  dat : db.dat.length = L.offs.length * (b + 1)

/-- The database takes the space of at most `n` records. -/
def Compact (a b n : ℕ) (db : DB) (m : Dict) : Prop :=
  ∃ L : Layout, L.Fits db.idx db.dat ∧ L.Wf ∧ L.get = m ∧ L.Uniform a b db ∧ L.offs.length ≤ n

/-- Only the sizes of the files matter. -/
theorem Layout.Uniform.congr (h : L.Uniform a b db) (hidx : db'.idx.length = db.idx.length)
    (hdat : db'.dat.length = db.dat.length) : L.Uniform a b db' :=
  ⟨h.key, h.data, hidx.trans h.idx, hdat.trans h.dat⟩

/-- Records that keep their sizes. -/
theorem Layout.Uniform.settled (h : L.Uniform a b db) (hs : db.Settled L db' L') :
    L'.Uniform a b db' := by
  refine ⟨fun o ho => ?_, fun o ho => ?_, ?_, ?_⟩
  · rw [hs.key o]
    exact h.key o (hs.offs ▸ ho)
  · rw [hs.data o]
    exact h.data o (hs.offs ▸ ho)
  · rw [hs.idx, hs.offs]
    exact h.idx
  · rw [hs.dat, hs.offs]
    exact h.dat

/-- The size of one more record. -/
theorem Layout.Uniform.entryLength (h : L.Uniform a b db) {key data : List UInt8}
    (hkey : key.length = a) (hdata : data.length = b) :
    (Rec.mk key data db.dat.length).entryLength = entrySize a b L.offs.length := by
  unfold Rec.entryLength entrySize
  rw [Rec.length_text, Rec.datlen, h.dat, hkey, hdata]

/-- A record that is appended. -/
theorem Layout.Uniform.appended (h : L.Uniform a b db) (o : ℕ) {key data : List UInt8}
    (hkey : key.length = a) (hdata : data.length = b)
    (hidx : db'.idx.length = db.idx.length + (Rec.mk key data db.dat.length).entryLength)
    (hdat : db'.dat.length = db.dat.length + (data.length + 1)) :
    (L.appended o ⟨key, data, db.dat.length⟩).Uniform a b db' := by
  obtain ⟨r, hr⟩ : ∃ r : Rec, r = ⟨key, data, db.dat.length⟩ := ⟨_, rfl⟩
  rw [h.entryLength hkey hdata] at hidx
  rw [← hr]
  have hcases : ∀ p ∈ L.offs ++ [o], (L.appended o r).entry p = r ∨
      p ∈ L.offs ∧ (L.appended o r).entry p = L.entry p := by
    intro p hp
    by_cases hpo : p = o
    · exact Or.inl (by rw [hpo]; exact Function.update_self ..)
    · refine Or.inr ⟨(List.mem_append.mp hp).resolve_right fun h => ?_, ?_⟩
      · exact hpo (List.mem_singleton.mp h)
      · exact Function.update_of_ne hpo _ _
  have hlength : (L.appended o r).offs.length = L.offs.length + 1 := List.length_append
  refine ⟨fun p hp => ?_, fun p hp => ?_, ?_, ?_⟩
  · rcases hcases p hp with heq | ⟨hp, heq⟩
    · rw [heq, hr, hkey]
    · rw [heq, h.key p hp]
  · rcases hcases p hp with heq | ⟨hp, heq⟩
    · rw [heq, hr, hdata]
    · rw [heq, h.data p hp]
  · rw [hidx, h.idx, hlength]
    rfl
  · rw [hdat, h.dat, hlength, hdata, Nat.add_mul, Nat.one_mul]

/-- A record that is appended is in use. -/
theorem Layout.lists_appended_free (o : ℕ) (r : Rec) :
    (L.appended o r).lists .free = L.lists .free :=
  Function.update_of_ne (ListId.ofKey_ne_free r.key).symm (o :: L.lists (.ofKey r.key)) L.lists

/-- When the free list is empty, each record is an entry of the map. -/
theorem Layout.Wf.length_offs (hF : L.Fits db.idx db.dat) (hW : L.Wf)
    (hfree : L.lists .free = []) (hmost : Dict.AtMost L.get n) : L.offs.length ≤ n := by
  have huse : L.offs.filter L.inUse = L.offs := by
    refine List.filter_eq_self.mpr fun o ho => Layout.inUse_iff.mpr ?_
    obtain ⟨k, hk⟩ := (hW.mem_offs o).mp ho
    refine hW.live k o ?_ hk
    rintro rfl
    rw [hfree] at hk
    exact List.not_mem_nil hk
  have hlisting := hW.listing hF
  rw [huse] at hlisting
  obtain ⟨keys, hkeys⟩ : ∃ keys, keys = (L.offs.map L.row).map Prod.fst := ⟨_, rfl⟩
  have hsub : (keys.toFinset : Set (List UInt8)) ⊆ {key | L.get key ≠ none} := by
    intro key hkey
    rw [Finset.mem_coe, List.mem_toFinset, hkeys, List.mem_map] at hkey
    obtain ⟨⟨k, data⟩, hmem, rfl⟩ := hkey
    exact ne_of_eq_of_ne ((hlisting.mem k data).mp hmem) (Option.some_ne_none _)
  have hcard : keys.toFinset.card = L.offs.length := by
    rw [List.toFinset_card_of_nodup (hkeys ▸ hlisting.nodup), hkeys, List.length_map,
      List.length_map]
  have hle : ((L.offs.length : ℕ) : ℕ∞) ≤ n := calc
    ((L.offs.length : ℕ) : ℕ∞) = (keys.toFinset : Set (List UInt8)).encard := by
      rw [Set.encard_coe_eq_coe_finsetCard, hcard]
    _ ≤ {key | L.get key ≠ none}.encard := Set.encard_le_encard hsub
    _ ≤ n := hmost
  exact_mod_cast hle

/-- A call keeps the space within that of `n` records when it leaves at most `n` entries. -/
theorem serve_compact (hoverlap : overlap.Keeps) (db : DB) (m : Dict) (call : Call)
    (h : Compact a b n db m) (hroom : HasRoom db call) (hsized : call.Sized a b)
    (hmost : LeavesAtMost n m call) :
    ∃ reply db' m', serve overlap db call = some (reply, db') ∧ dict m call = some (reply, m') ∧
      Compact a b n db' m' := by
  obtain ⟨L, hF, hW, rfl, huniform, hlength⟩ := h
  cases call with
  | fetch key =>
    obtain ⟨db', hrun, hidx, hdat⟩ := db_fetch_spec hF hW key
    refine ⟨.data (L.get key.chars), db', L.get, outcome_eq hrun, rfl, L, ?_, hW, rfl,
      huniform.congr (congrArg _ hidx) (congrArg _ hdat), hlength⟩
    rw [hidx, hdat]
    exact hF
  | store key data flag =>
    obtain ⟨db', L', hrun, hF', hW', hget', -, hstored⟩ :=
      db_store_spec hoverlap hF hW key data flag (hroom key data flag rfl)
    obtain ⟨hkey, hdata⟩ := hsized
    have hmost' : Dict.AtMost L'.get n := hget' ▸ hmost _ _ rfl
    refine ⟨.code (Dict.store L.get key.chars data.chars flag).1, db', _, outcome_eq hrun, rfl,
      L', hF', hW', hget', ?_⟩
    cases hstored with
    | settled hsettled => exact ⟨huniform.settled hsettled, hsettled.offs ▸ hlength⟩
    | appended hfree hL' hidx hdat =>
      -- Any free record would have had the right sizes.
      have hnil : L.lists .free = [] := by
        refine List.eq_nil_iff_forall_not_mem.mpr fun o ho => hfree o ho ?_
        have hoffs : o ∈ L.offs := (hW.mem_offs o).mpr ⟨_, ho⟩
        refine ⟨(huniform.key o hoffs).trans hkey.symm, ?_⟩
        rw [Rec.datlen, huniform.data o hoffs, hdata]
      have hnil' : L'.lists .free = [] := by
        rw [hL', Layout.lists_appended_free, hnil]
      refine ⟨?_, hW'.length_offs hF' hnil' hmost'⟩
      rw [hL']
      exact huniform.appended _ hkey hdata hidx hdat
    | moved o ho hne => exact absurd ((huniform.data o ho).trans hdata.symm) hne
  | delete key =>
    unfold dict
    rcases db_delete_spec hoverlap hF hW key with
      ⟨hsome, db', L', hrun, hF', hW', hget', hsettled⟩ | ⟨hnone, db', hrun, hidx, hdat⟩
    · exact ⟨.code 0, db', _, outcome_eq hrun, if_neg hsome, L', hF', hW', hget',
        huniform.settled hsettled, hsettled.offs ▸ hlength⟩
    · refine ⟨.code (-1), db', L.get, outcome_eq hrun, if_pos hnone, L, ?_, hW, rfl,
        huniform.congr (congrArg _ hidx) (congrArg _ hdat), hlength⟩
      rw [hidx, hdat]
      exact hF
  | reopen =>
    exact ⟨.opened, _, L.get, rfl, rfl, L, hF, hW, rfl, huniform.congr rfl rfl, hlength⟩

/-- A new database takes no space. -/
theorem compact_new (idx dat : Option (List UInt8)) (a b n : ℕ) :
    ∃ db, db_open true true idx dat = some db ∧ Compact a b n db fun _ => none := by
  obtain ⟨db, hopen, hidx, hdat⟩ := open_new idx dat
  have hF : Layout.empty.Fits db.idx db.dat := by
    rw [hidx, hdat]
    exact fits_empty
  refine ⟨db, hopen, Layout.empty, hF, wf_empty, rfl, ?_, Nat.zero_le n⟩
  refine ⟨fun _ ho => absurd ho List.not_mem_nil, fun _ ho => absurd ho List.not_mem_nil,
    hF.laid.symm, ?_⟩
  rw [hdat]
  exact (Nat.zero_mul _).symm

/-- The files of a session with keys of one length and data of one length are no larger than with
the greatest number of entries at one time, stored one after the other. -/
theorem space_session (hoverlap : overlap.Keeps) {idx dat : Option (List UInt8)} {db : DB}
    (hopen : db_open true true idx dat = some db) {calls : List Call}
    (hroom : (serve overlap).Guarded HasRoom db calls) (hsized : ∀ call ∈ calls, call.Sized a b)
    (hmost : dict.Guarded (LeavesAtMost n) (fun _ => none) calls) :
    ∃ replies db' m, (serve overlap).session db calls = some (replies, db') ∧
      dict.session (fun _ => none) calls = some (replies, m) ∧
      db'.idx.length ≤ idxSize a b n ∧ db'.dat.length ≤ n * (b + 1) := by
  obtain ⟨db₀, hopen₀, hcompact⟩ := compact_new idx dat a b n
  obtain rfl := Option.some.inj (hopen.symm.trans hopen₀)
  obtain ⟨replies, db', m, hserve, hdict, L, -, -, -, huniform, hlength⟩ := Server.session_eq
    (fun db m call hcompact hguard hmost =>
      serve_compact hoverlap db m call hcompact hguard.1 hguard.2 hmost)
    hcompact (hroom.and hsized) hmost
  refine ⟨replies, db', m, hserve, hdict, ?_, ?_⟩
  · rw [huniform.idx]
    exact idxSize_mono hlength
  · rw [huniform.dat]
    exact Nat.mul_le_mul_right _ hlength

/-- One entry and no other. -/
theorem Dict.atMost_one (key : List UInt8) (data : Option (List UInt8)) :
    Dict.AtMost (Function.update (fun _ => none) key data) 1 := by
  have hsub : {k | Function.update (fun _ => none) key data k ≠ none} ⊆ {key} := by
    intro k hk
    by_contra hne
    have hk' : Function.update (fun _ => none) key data k ≠ none := hk
    rw [Function.update_of_ne hne] at hk'
    exact hk' rfl
  exact (Set.encard_le_encard hsub).trans_eq (Set.encard_singleton key)

/-- A call of which the answer is known. -/
theorem guarded_cons {m m' : Dict} {call : Call} {calls : List Call} {reply : Reply}
    (hcall : dict m call = some (reply, m')) (hmost : Dict.AtMost m' n)
    (h : dict.Guarded (LeavesAtMost n) m' calls) :
    dict.Guarded (LeavesAtMost n) m (call :: calls) := by
  refine .cons (fun reply' m'' hcall' => ?_) hcall h
  obtain ⟨-, rfl⟩ := Prod.mk.inj (Option.some.inj (hcall.symm.trans hcall'))
  exact hmost

/-- Of two records of which one is stored when the other has been deleted, there is one at a time.
-/
theorem leavesAtMost_lettersInTurn :
    dict.Guarded (LeavesAtMost 1) (fun _ => none) lettersInTurn := by
  obtain ⟨m, hm⟩ : ∃ m : Dict, m = Function.update (fun _ => none) [97] (some [120]) := ⟨_, rfl⟩
  obtain ⟨m', hm'⟩ : ∃ m : Dict, m = Function.update (fun _ => none) [98] (some [121]) := ⟨_, rfl⟩
  have hone : Dict.AtMost m 1 := hm ▸ Dict.atMost_one _ _
  have hone' : Dict.AtMost m' 1 := hm' ▸ Dict.atMost_one _ _
  have hnone : Function.update m [97] none = fun _ => none := by
    rw [hm, Function.update_idem]
    exact Function.update_eq_self _ _
  have hzero : Dict.AtMost (fun _ => none) 1 := by
    rw [← hnone, hm, Function.update_idem]
    exact Dict.atMost_one _ _
  have hsome : m [97] = some [120] := by rw [hm]; exact Function.update_self ..
  have hdelete : dict m (.delete (letterKey 97 (by decide)).toKey) =
      some (.code 0, fun _ => none) := by
    rw [← hnone]
    exact if_neg (ne_of_eq_of_ne hsome (Option.some_ne_none _))
  refine guarded_cons (by rw [hm]; rfl) hone ?_
  refine guarded_cons rfl hone ?_
  refine guarded_cons (show dict m _ = some (_, m) from rfl) hone ?_
  refine guarded_cons hdelete hzero ?_
  refine guarded_cons (by rw [hm']; rfl) hone' ?_
  exact guarded_cons (show dict m' _ = some (_, m') from rfl) hone' trivial

/-- Two records that are stored one after the other take the space of one. -/
theorem space_session_letters :
    ∃ db replies db', db_open true true none none = some db ∧
      (serve some).session db lettersInTurn = some (replies, db') ∧
      db'.idx.length ≤ idxSize 1 1 1 ∧ db'.dat.length ≤ 1 * (1 + 1) := by
  obtain ⟨db, hopen, hidx, hdat, hrep⟩ := represents_new none none
  have hsized : ∀ call ∈ lettersInTurn, call.Sized 1 1 := by
    simp [lettersInTurn, Call.Sized, letterKey, letterData]
  obtain ⟨replies, db', -, hserve, -, hidx', hdat'⟩ := space_session keeps_some hopen
    (guarded_lettersInTurn hidx hdat hrep) hsized leavesAtMost_lettersInTurn
  exact ⟨db, replies, db', hopen, hserve, hidx', hdat'⟩

end CxxPandora.Apue.Db
