import CxxPandora.Apue.Db.Model
import CxxPandora.Lib.Threads
import Mathlib.Data.Fin.Basic

/-!
# What the files of a database say

A `Layout` is what a reader makes of the two files: the places of the index records in the order in
which they are laid out, the record at each place, the links, and which record is on which list.
`Layout.Fits` says that the files are those of a layout. Each function of the library that reads or
writes one part of a file has one lemma here: what it reads is what the layout says, and what it
writes is a file of the layout with that part replaced (`fits_writeptr`, `fits_writeidx`,
`fits_appendidx`, `fits_writedat`). The rest of the proof is about layouts.
-/

namespace CxxPandora.Apue.Db

open Lib

/-! ## Running the functions -/

section Monad

variable {α β : Type} {db db' : DB}

/-- What follows a computation that succeeds. -/
theorem bind_ok {x : DbM α} {f : α → DbM β} {a : α} (h : x db = .ok (a, db')) :
    (x >>= f) db = f a db' := by
  show Except.bind (x db) (fun p => f p.1 p.2) = f a db'
  rw [h]
  rfl

/-- What follows a change of the handle. -/
theorem bind_modify {g : DB → DB} {f : PUnit → DbM β} :
    ((modify g : DbM PUnit) >>= f) db = f ⟨⟩ (g db) := rfl

/-- What follows a look at the handle. -/
theorem bind_get {f : DB → DbM β} : ((get : DbM DB) >>= f) db = f db db := rfl

/-- What follows a new handle. -/
theorem bind_set {f : PUnit → DbM β} : ((set db' : DbM PUnit) >>= f) db = f ⟨⟩ db' := rfl

/-- A condition that does not hold. -/
theorem bind_dumpIf {c : Prop} [Decidable c] {msg : String} {f : Unit → DbM β} (h : ¬c) :
    (dumpIf c msg >>= f) db = f () db := by
  unfold dumpIf
  rw [if_neg h]
  rfl

/-- A value that is defined. -/
theorem bind_defined {γ : Type} {x : Option γ} {a : γ} {f : γ → DbM β} (h : x = some a) :
    (defined x >>= f) db = f a db := by
  rw [h]
  rfl

/-- A pointer that may be written. -/
theorem bind_checkPtr {p : ℤ} {msg : String} {f : Unit → DbM β} (h : 0 ≤ p) (h' : p ≤ PTR_MAX) :
    (checkPtr p msg >>= f) db = f () db := by
  unfold checkPtr
  rw [if_neg (by omega)]
  rfl

/-- A position from the start of the file. -/
theorem bind_seekIdx {o : ℕ} {msg : String} {f : Unit → DbM β} :
    (seekIdx o msg >>= f) db = f () { db with pos := o } := by
  have hseek : seekIdx o msg db = .ok ((), { db with pos := o }) := by
    unfold seekIdx
    rw [bind_dumpIf (by omega)]
    rfl
  exact bind_ok hseek

/-- A read of what the file has there. -/
theorem bind_readIdx {n : ℕ} {w : List UInt8} {f : List UInt8 → DbM β}
    (h : Window db.idx db.pos w) (hn : n = w.length) :
    (readIdx n >>= f) db = f w { db with pos := db.pos + n } := by
  have hread : readIdx n db = .ok (w, { db with pos := db.pos + n }) := by
    unfold readIdx
    rw [bind_get, h.readAt_eq hn, ← hn]
    rfl
  exact bind_ok hread

/-- A write that the file has room for. -/
theorem writeIdx_eq {w : List UInt8} {msg : String} (h : db.pos + w.length ≤ OFF_MAX) :
    writeIdx w msg db =
      .ok ((), { db with idx := writeAt db.idx db.pos w, pos := db.pos + w.length }) := by
  unfold writeIdx
  rw [bind_get, bind_dumpIf (by omega)]
  rfl

end Monad

/-! ## Layouts -/

/-- An index record with its data. -/
structure Rec where
  key : List UInt8
  data : List UInt8
  datoff : ℕ

/-- The length of the data record. -/
def Rec.datlen (r : Rec) : ℕ := r.data.length + 1

/-- The text of the record. -/
def Rec.text (r : Rec) : List UInt8 := idxText r.key r.datoff r.datlen

/-- The record behind its pointer: the length of the text, and the text. -/
def Rec.body (r : Rec) : List UInt8 := padLeft IDXLEN_SZ (decimal r.text.length) ++ r.text

/-- A record that the library accepts. -/
structure Rec.Ok (r : Rec) : Prop where
  sep : SEP ∉ r.key
  key : 0 ∉ r.key
  data : 0 ∉ r.data
  min : IDXLEN_MIN ≤ r.text.length
  max : r.text.length ≤ IDXLEN_MAX
  datmax : r.datlen ≤ DATLEN_MAX

/-- The lists: the free list, and one for each hash value. -/
abbrev ListId := Fin (NHASH_DEF + 1)

/-- The free list. -/
def ListId.free : ListId := ⟨0, by decide⟩

/-- A hash value is below their number. -/
theorem db_hash_getD_lt (key : List UInt8) : (db_hash key).getD 0 < NHASH_DEF := by
  cases hhash : db_hash key with
  | none => decide
  | some hval =>
    obtain ⟨sum, -, rfl⟩ := Option.map_eq_some_iff.mp hhash
    exact Nat.mod_lt _ (by decide)

/-- The hash chain of a key; the first one when its hash value is undefined. -/
def ListId.ofKey (key : List UInt8) : ListId :=
  ⟨(db_hash key).getD 0 + 1, Nat.succ_lt_succ (db_hash_getD_lt key)⟩

/-- The place of the pointer to a list. -/
def anchor (k : ListId) : ℕ := k.val * PTR_SZ

/-- What a reader makes of the files. -/
structure Layout where
  /-- The places of the index records, in their order. -/
  offs : List ℕ
  /-- The record at each place. -/
  entry : ℕ → Rec
  /-- What each pointer leads to. -/
  next : ℕ → Option ℕ
  /-- The records on each list. -/
  lists : ListId → List ℕ

/-- A pointer as the text in the index file, where 0 leads nowhere. -/
def ptrText (p : Option ℕ) : List UInt8 := asciiPtr (p.getD 0 : ℕ)

/-- The size of a record in the index file. -/
def Layout.size (L : Layout) (o : ℕ) : ℕ := PTR_SZ + (L.entry o).body.length

/-- The place of the first index record. -/
def idxStart : ℕ := (NHASH_DEF + 1) * PTR_SZ + 1

/-- The places of the pointers. -/
def Layout.Slot (L : Layout) (s : ℕ) : Prop := (∃ k, s = anchor k) ∨ s ∈ L.offs

/-- The two files are those of the layout. -/
structure Layout.Fits (L : Layout) (idx dat : List UInt8) : Prop where
  ptr : ∀ s, L.Slot s → Window idx s (ptrText (L.next s))
  body : ∀ o ∈ L.offs, Window idx (o + PTR_SZ) (L.entry o).body
  laid : LaidOut L.size idxStart L.offs idx.length
  data : ∀ o ∈ L.offs, Window dat (L.entry o).datoff ((L.entry o).data ++ [NEWLINE])
  apart : ∀ o ∈ L.offs, ∀ p ∈ L.offs, o ≠ p →
    (L.entry o).datoff + (L.entry o).datlen ≤ (L.entry p).datoff ∨
      (L.entry p).datoff + (L.entry p).datlen ≤ (L.entry o).datoff
  ok : ∀ o ∈ L.offs, (L.entry o).Ok
  next_mem : ∀ s p, L.Slot s → L.next s = some p → p ∈ L.offs
  ptr_max : ∀ o ∈ L.offs, (o : ℤ) ≤ PTR_MAX
  idx_max : idx.length ≤ OFF_MAX
  dat_max : dat.length ≤ OFF_MAX

/-! ## Sizes and places -/

/-- A pointer fills its field. -/
theorem length_asciiPtr {p : ℕ} (h : (p : ℤ) ≤ PTR_MAX) : (asciiPtr p).length = PTR_SZ := by
  have hlt : p < 10 ^ 7 := by
    unfold PTR_MAX at h
    omega
  exact length_padLeft_decimal (by decide) hlt

/-- The length of a text fills its field. -/
theorem Rec.Ok.length_body {r : Rec} (h : r.Ok) : r.body.length = IDXLEN_SZ + r.text.length := by
  have hlt : r.text.length < 10 ^ 4 := by
    have hmax := h.max
    unfold IDXLEN_MAX at hmax
    omega
  rw [Rec.body, List.length_append]
  exact congrArg (· + r.text.length) (length_padLeft_decimal (by decide) hlt)

/-- The text of a record is as long as its parts. -/
theorem Rec.length_text (r : Rec) : r.text.length =
    r.key.length + (decimal r.datoff).length + (decimal r.datlen).length + 3 := by
  rw [Rec.text, idxText]
  simp only [List.length_append, List.length_cons, List.length_nil]
  omega

/-- Records whose keys and data are equally long, and whose data have one place, have texts that are
equally long. -/
theorem Rec.length_text_eq {r r' : Rec} (hkey : r'.key.length = r.key.length)
    (hdata : r'.data.length = r.data.length) (hoff : r'.datoff = r.datoff) :
    r'.text.length = r.text.length := by
  rw [Rec.length_text, Rec.length_text, Rec.datlen, Rec.datlen, hkey, hdata, hoff]

namespace Layout.Fits

variable {L : Layout} {idx dat : List UInt8} {o p s t : ℕ}

/-- A pointer that leads to a record, or nowhere, is small enough for its field. -/
theorem ptr_le (h : L.Fits idx dat) {v : Option ℕ} (hv : ∀ p, v = some p → p ∈ L.offs) :
    ((v.getD 0 : ℕ) : ℤ) ≤ PTR_MAX := by
  cases v with
  | none => decide
  | some p => exact h.ptr_max p (hv p rfl)

/-- A pointer is small enough for its field. -/
theorem next_le (h : L.Fits idx dat) (hs : L.Slot s) : (((L.next s).getD 0 : ℕ) : ℤ) ≤ PTR_MAX :=
  h.ptr_le fun p => h.next_mem s p hs

/-- The text of a pointer fills its field. -/
theorem length_ptrText (h : L.Fits idx dat) (hs : L.Slot s) :
    (ptrText (L.next s)).length = PTR_SZ := length_asciiPtr (h.next_le hs)

/-- A record is behind the hash table, and within the file. -/
theorem bounds (h : L.Fits idx dat) (ho : o ∈ L.offs) :
    idxStart ≤ o ∧ o + L.size o ≤ idx.length := h.laid.bounds ho

/-- No record is where the hash table is. -/
theorem anchor_add_le (h : L.Fits idx dat) (ho : o ∈ L.offs) (k : ListId) :
    anchor k + PTR_SZ ≤ o := by
  have hk := k.isLt
  have ho' := (h.bounds ho).1
  unfold idxStart at ho'
  unfold anchor
  have hmul : (k.val + 1) * PTR_SZ ≤ (NHASH_DEF + 1) * PTR_SZ := Nat.mul_le_mul_right PTR_SZ hk
  rw [Nat.succ_mul] at hmul
  omega

/-- No record is at the start of the file. -/
theorem ne_zero (h : L.Fits idx dat) (ho : o ∈ L.offs) : o ≠ 0 := by
  have hle := h.anchor_add_le ho ListId.free
  unfold PTR_SZ at hle
  omega

/-- Two pointers do not overlap. -/
theorem slot_apart (h : L.Fits idx dat) (hs : L.Slot s) (ht : L.Slot t) (hne : s ≠ t) :
    s + PTR_SZ ≤ t ∨ t + PTR_SZ ≤ s := by
  rcases hs with ⟨k, rfl⟩ | hs <;> rcases ht with ⟨m, rfl⟩ | ht
  · have hkm : k.val ≠ m.val := fun heq => hne (congrArg anchor (Fin.ext heq))
    unfold anchor PTR_SZ
    omega
  · exact Or.inl (h.anchor_add_le ht k)
  · exact Or.inr (h.anchor_add_le hs m)
  · have hapart := h.laid.apart hs ht hne
    unfold Layout.size at hapart
    omega

/-- A pointer does not overlap with what follows another pointer. -/
theorem slot_apart_body (h : L.Fits idx dat) (hs : L.Slot s) (ho : o ∈ L.offs) :
    s + PTR_SZ ≤ o + PTR_SZ ∨ o + PTR_SZ + (L.entry o).body.length ≤ s := by
  rcases hs with ⟨k, rfl⟩ | hs
  · have hle := h.anchor_add_le ho k
    omega
  · by_cases hso : s = o
    · omega
    · have hapart := h.laid.apart hs ho hso
      unfold Layout.size at hapart
      omega

/-- A pointer is within the file. -/
theorem slot_le (h : L.Fits idx dat) (hs : L.Slot s) : s + PTR_SZ ≤ idx.length := by
  have hlen := h.length_ptrText hs
  have hle := (h.ptr s hs).add_length_le (List.ne_nil_of_length_pos (by rw [hlen]; decide))
  omega

end Layout.Fits

/-! ## Reading -/

section Read

variable {L : Layout} {db : DB} {o s : ℕ}

/-- A pointer that is read. -/
theorem Layout.Fits.readptr (h : L.Fits db.idx db.dat) (hs : L.Slot s) :
    db_readptr s db =
      .ok ((((L.next s).getD 0 : ℕ) : ℤ), { db with pos := s + PTR_SZ }) := by
  have hlen := h.length_ptrText hs
  have hwin : Window ({ db with pos := s } : DB).idx ({ db with pos := s } : DB).pos
      (ptrText (L.next s)) := h.ptr s hs
  unfold db_readptr
  rw [bind_seekIdx, bind_readIdx hwin hlen.symm, bind_dumpIf (by rw [hlen]; exact fun h => h rfl),
    ptrText, asciiPtr, atol_padLeft_decimal]
  rfl

/-- The separators of a record that the library accepts. -/
theorem splitIdx_eq {r : Rec} (h : r.Ok) :
    splitIdx (r.key ++ SEP :: decimal r.datoff ++ SEP :: decimal r.datlen) db =
      .ok ((), { db with idxbuf := r.key, datoff := r.datoff, datlen := r.datlen }) := by
  have hdigit : isDigit SEP = false := rfl
  have hassoc : r.key ++ SEP :: decimal r.datoff ++ SEP :: decimal r.datlen =
      r.key ++ SEP :: (decimal r.datoff ++ SEP :: decimal r.datlen) := by
    rw [List.append_assoc, List.cons_append]
  have hfirst : strchr (r.key ++ SEP :: (decimal r.datoff ++ SEP :: decimal r.datlen)) SEP =
      some r.key.length := idxOf?_append_cons h.sep _
  have hsecond : strchr (decimal r.datoff ++ SEP :: decimal r.datlen) SEP =
      some (decimal r.datoff).length := idxOf?_append_cons (notMem_decimal hdigit _) _
  have hthird : strchr (decimal r.datlen) SEP = none :=
    List.idxOf?_eq_none_iff.mpr (notMem_decimal hdigit _)
  have hdrop : (r.key ++ SEP :: (decimal r.datoff ++ SEP :: decimal r.datlen)).drop
      (r.key.length + 1) = decimal r.datoff ++ SEP :: decimal r.datlen := by
    rw [← List.drop_drop, List.drop_left]
    rfl
  have hdrop' : (decimal r.datoff ++ SEP :: decimal r.datlen).drop
      ((decimal r.datoff).length + 1) = decimal r.datlen := by
    rw [← List.drop_drop, List.drop_left]
    rfl
  have hmax := h.datmax
  have hpos : 0 < r.datlen := Nat.succ_pos _
  unfold DATLEN_MAX at hmax
  have hsize : toSize (r.datlen : ℤ) = r.datlen := toSize_natCast (by omega)
  rw [hassoc, splitIdx, hfirst]
  dsimp only
  rw [hdrop, hsecond]
  dsimp only
  rw [hdrop', List.take_left, List.take_left, atol_decimal, atol_decimal, hsize,
    bind_dumpIf (fun hne => hne hthird), bind_dumpIf (by omega),
    bind_dumpIf (by unfold DATLEN_MAX; omega)]
  rfl

/-- The handle after an index record has been read. -/
def DB.onRec (db : DB) (L : Layout) (o : ℕ) : DB := { db with
  pos := o + L.size o
  idxoff := o
  ptrval := ((L.next o).getD 0 : ℕ)
  idxlen := (L.entry o).text.length
  idxbuf := (L.entry o).key
  datoff := (L.entry o).datoff
  datlen := (L.entry o).datlen }

/-- The text of a record without its newline has no NUL. -/
theorem cstr_dropLast_text {r : Rec} (h : r.Ok) :
    cstr r.text.dropLast = r.key ++ SEP :: decimal r.datoff ++ SEP :: decimal r.datlen := by
  rw [Rec.text, idxText, List.dropLast_concat]
  refine cstr_eq_self fun hmem => ?_
  simp only [List.mem_append, List.mem_cons] at hmem
  rcases hmem with (hkey | hsep | hoff) | hsep | hlen
  · exact h.key hkey
  · exact absurd hsep (by decide)
  · exact notMem_decimal rfl _ hoff
  · exact absurd hsep (by decide)
  · exact notMem_decimal rfl _ hlen

/-- An index record that is read, at its place or at the current position. -/
theorem Layout.Fits.readidx (h : L.Fits db.idx db.dat) (ho : o ∈ L.offs) {z : ℤ}
    (hz : z = o ∨ z = 0 ∧ db.pos = o) :
    db_readidx z db = .ok ((((L.next o).getD 0 : ℕ) : ℤ), db.onRec L o) := by
  have hok := h.ok o ho
  have hptr := h.length_ptrText (Or.inr ho)
  have hlen : (padLeft IDXLEN_SZ (decimal (L.entry o).text.length)).length = IDXLEN_SZ := by
    have hbody := hok.length_body
    rw [Rec.body, List.length_append] at hbody
    omega
  -- The two windows of the record are three: the pointer, the length, and the text.
  have hbody := window_append.mp (h.body o ho)
  rw [hlen] at hbody
  have hiov : Window db.idx o
      (ptrText (L.next o) ++ padLeft IDXLEN_SZ (decimal (L.entry o).text.length)) := by
    refine window_append.mpr ⟨h.ptr o (Or.inr ho), ?_⟩
    rw [hptr]
    exact hbody.1
  have hiovlen : (ptrText (L.next o) ++
      padLeft IDXLEN_SZ (decimal (L.entry o).text.length)).length = PTR_SZ + IDXLEN_SZ := by
    rw [List.length_append, hptr, hlen]
  have hatol : atol (ptrText (L.next o)) = ((L.next o).getD 0 : ℕ) := atol_padLeft_decimal _ _
  have hmin := hok.min
  have hmax := hok.max
  have hsize : toSize (toInt ((L.entry o).text.length : ℤ)) = (L.entry o).text.length := by
    unfold IDXLEN_MAX at hmax
    rw [toInt_of_nonneg (by omega) (by unfold intMax; omega), toSize_natCast (by omega)]
  have hlast : (L.entry o).text.getLast? = some NEWLINE := by
    rw [Rec.text, idxText, List.getLast?_concat]
  -- The position: by `lseek`, or where it is already.
  have hseek : seekRecord z db = .ok ((), { db with pos := o }) := by
    unfold seekRecord
    rcases hz with rfl | ⟨rfl, hpos⟩
    · have hne := h.ne_zero ho
      have hbind : (seekIdx (o : ℤ) "_db_readidx: lseek error" >>= pure) db =
          .ok ((), { db with pos := o }) := bind_seekIdx
      rw [if_neg (by omega)]
      rwa [bind_pure] at hbind
    · rw [if_pos rfl, ← hpos]
      rfl
  have htake : (ptrText (L.next o) ++
      padLeft IDXLEN_SZ (decimal (L.entry o).text.length)).take PTR_SZ = ptrText (L.next o) :=
    hptr ▸ List.take_left
  have hdrop : (ptrText (L.next o) ++
      padLeft IDXLEN_SZ (decimal (L.entry o).text.length)).drop PTR_SZ =
        padLeft IDXLEN_SZ (decimal (L.entry o).text.length) := hptr ▸ List.drop_left
  have hsplit := cstr_dropLast_text hok
  have hsizeof : o + (PTR_SZ + IDXLEN_SZ) + (L.entry o).text.length = o + L.size o := by
    unfold Layout.size
    rw [hok.length_body]
    omega
  unfold db_readidx
  rw [bind_ok hseek, bind_modify, bind_readIdx hiov hiovlen.symm,
    if_neg (fun heq => absurd (hiovlen.symm.trans heq.1) (by decide)),
    bind_dumpIf (fun hne => hne hiovlen), htake, hdrop, atol_padLeft_decimal, hatol, hsize,
    bind_modify, bind_dumpIf (by omega), bind_readIdx hbody.2 rfl, bind_dumpIf (fun hne => hne rfl),
    bind_dumpIf (fun hne => hne hlast), hsplit, bind_ok (splitIdx_eq hok)]
  unfold DB.onRec
  rw [← hsizeof]
  rfl

/-- The data of a record that is read. -/
theorem Layout.Fits.readdat (h : L.Fits db.idx db.dat) (ho : o ∈ L.offs)
    (hoff : db.datoff = (L.entry o).datoff) (hlen : db.datlen = (L.entry o).datlen) :
    db_readdat db = .ok ((L.entry o).data, { db with datbuf := (L.entry o).data }) := by
  have hwin := h.data o ho
  have hread : readAt db.dat db.datoff db.datlen = (L.entry o).data ++ [NEWLINE] := by
    rw [hoff]
    refine hwin.readAt_eq ?_
    rw [hlen, Rec.datlen, List.length_append, List.length_singleton]
  have hcstr : cstr ((L.entry o).data ++ [NEWLINE]).dropLast = (L.entry o).data := by
    rw [List.dropLast_concat]
    exact cstr_eq_self (h.ok o ho).data
  unfold db_readdat
  rw [bind_get, hread, bind_dumpIf, bind_dumpIf, hcstr]
  · rfl
  · exact fun hne => hne List.getLast?_concat
  · intro hne
    refine hne ?_
    rw [hlen, Rec.datlen, List.length_append, List.length_singleton]

end Read

/-! ## Writing -/

/-- The layout after a pointer has been written. -/
def Layout.setNext (L : Layout) (s : ℕ) (v : Option ℕ) : Layout :=
  { L with next := Function.update L.next s v }

/-- The layout after a record has been written. -/
def Layout.setEntry (L : Layout) (o : ℕ) (r : Rec) : Layout :=
  { L with entry := Function.update L.entry o r }

/-- The layout after the data of a record have been written. -/
def Layout.setData (L : Layout) (o : ℕ) (data : List UInt8) : Layout :=
  L.setEntry o { L.entry o with data := data }

/-- The layout after the key of a record has been written. -/
def Layout.setKey (L : Layout) (o : ℕ) (key : List UInt8) : Layout :=
  L.setEntry o { L.entry o with key := key }

/-- The layout with one more record. -/
def Layout.append (L : Layout) (o : ℕ) (r : Rec) : Layout :=
  { L with offs := L.offs ++ [o], entry := Function.update L.entry o r }

section Updates

variable {L : Layout} {o p s t : ℕ} {r : Rec} {v : Option ℕ}

/-- The pointer that has been written. -/
theorem Layout.next_setNext_self : (L.setNext s v).next s = v := Function.update_self ..

/-- Any other pointer. -/
theorem Layout.next_setNext_of_ne (h : t ≠ s) : (L.setNext s v).next t = L.next t :=
  Function.update_of_ne h _ _

/-- The record that has been written. -/
theorem Layout.entry_setEntry_self : (L.setEntry o r).entry o = r := Function.update_self ..

/-- Any other record. -/
theorem Layout.entry_setEntry_of_ne (h : p ≠ o) : (L.setEntry o r).entry p = L.entry p :=
  Function.update_of_ne h _ _

/-- A new pointer does not change the records. -/
theorem Layout.entry_setNext : (L.setNext s v).entry = L.entry := rfl

/-- New data do not change the pointers. -/
theorem Layout.next_setData {data : List UInt8} : (L.setData o data).next = L.next := rfl

/-- The record whose data have been written. -/
theorem Layout.entry_setData_self {data : List UInt8} :
    (L.setData o data).entry o = { L.entry o with data := data } := Function.update_self ..

/-- The record whose key has been written. -/
theorem Layout.entry_setKey_self {key : List UInt8} :
    (L.setKey o key).entry o = { L.entry o with key := key } := Function.update_self ..

/-- The record that has been appended. -/
theorem Layout.entry_append_self : (L.append o r).entry o = r := Function.update_self ..

/-- Any other record. -/
theorem Layout.entry_append_of_ne (h : p ≠ o) : (L.append o r).entry p = L.entry p :=
  Function.update_of_ne h _ _

end Updates

namespace Layout.Fits

variable {L : Layout} {idx dat : List UInt8} {o s : ℕ} {r : Rec} {v : Option ℕ}

/-- The lists are not in the files. -/
theorem withLists (h : L.Fits idx dat) (lists : ListId → List ℕ) :
    ({ L with lists := lists } : Layout).Fits idx dat :=
  ⟨h.ptr, h.body, h.laid, h.data, h.apart, h.ok, h.next_mem, h.ptr_max, h.idx_max, h.dat_max⟩

/-- The text of a pointer that leads to a record, or nowhere, fills its field. -/
theorem length_ptrText_of (h : L.Fits idx dat) (hv : ∀ p, v = some p → p ∈ L.offs) :
    (ptrText v).length = PTR_SZ := length_asciiPtr (h.ptr_le hv)

/-- A pointer is written. -/
theorem setNext (h : L.Fits idx dat) (hs : L.Slot s) (hv : ∀ p, v = some p → p ∈ L.offs) :
    (L.setNext s v).Fits (writeAt idx s (ptrText v)) dat := by
  have hlen := h.length_ptrText_of hv
  have hlength : (writeAt idx s (ptrText v)).length = idx.length :=
    length_writeAt_of_le (by rw [hlen]; exact h.slot_le hs)
  refine ⟨?_, ?_, ?_, h.data, h.apart, h.ok, ?_, h.ptr_max, ?_, h.dat_max⟩
  · intro t ht
    by_cases hts : t = s
    · subst hts
      rw [Layout.next_setNext_self]
      exact window_writeAt idx t _
    · have hapart := h.slot_apart ht hs hts
      rw [Layout.next_setNext_of_ne hts]
      refine (h.ptr t ht).writeAt ?_
      rwa [h.length_ptrText ht, hlen]
  · intro o ho
    have hapart := h.slot_apart_body hs ho
    refine (h.body o ho).writeAt ?_
    rw [hlen]
    exact hapart.symm
  · rw [hlength]
    exact h.laid
  · intro t p ht hp
    by_cases hts : t = s
    · subst hts
      rw [Layout.next_setNext_self] at hp
      exact hv p hp
    · rw [Layout.next_setNext_of_ne hts] at hp
      exact h.next_mem t p ht hp
  · rw [hlength]
    exact h.idx_max

/-- The data of a record are overwritten by others that are equally long. -/
theorem setData (h : L.Fits idx dat) (ho : o ∈ L.offs) {data : List UInt8}
    (hlen : data.length = (L.entry o).data.length) (hzero : 0 ∉ data) :
    (L.setData o data).Fits idx
      (writeAt dat (L.entry o).datoff (data ++ [NEWLINE])) := by
  have hwritten : (data ++ [NEWLINE]).length = (L.entry o).datlen := by
    rw [Rec.datlen, List.length_append, hlen, List.length_singleton]
  have hle : (L.entry o).datoff + (L.entry o).datlen ≤ dat.length := by
    have hle := (h.data o ho).add_length_le (by simp)
    rwa [List.length_append, List.length_singleton, ← Rec.datlen] at hle
  have hlength : (writeAt dat (L.entry o).datoff (data ++ [NEWLINE])).length = dat.length :=
    length_writeAt_of_le (by rw [hwritten]; exact hle)
  have htext : ({ L.entry o with data := data } : Rec).text = (L.entry o).text := by
    unfold Rec.text Rec.datlen
    rw [hlen]
  -- What is in the index file does not change.
  have hbody : ∀ p, ((L.setData o data).entry p).body = (L.entry p).body := by
    intro p
    by_cases hp : p = o
    · subst hp
      rw [Layout.entry_setData_self, Rec.body, htext]
      rfl
    · rw [Layout.setData, Layout.entry_setEntry_of_ne hp]
  have hdat : ∀ p, ((L.setData o data).entry p).datoff = (L.entry p).datoff ∧
      ((L.setData o data).entry p).datlen = (L.entry p).datlen := by
    intro p
    by_cases hp : p = o
    · subst hp
      rw [Layout.entry_setData_self]
      exact ⟨rfl, congrArg (· + 1) hlen⟩
    · rw [Layout.setData, Layout.entry_setEntry_of_ne hp]
      exact ⟨rfl, rfl⟩
  refine ⟨h.ptr, ?_, ?_, ?_, ?_, ?_, h.next_mem, h.ptr_max, h.idx_max, ?_⟩
  · intro p hp
    rw [hbody]
    exact h.body p hp
  · refine h.laid.congr fun p _ => ?_
    rw [Layout.size, Layout.size, hbody]
  · intro p hp
    by_cases hpo : p = o
    · subst hpo
      rw [Layout.entry_setData_self]
      exact window_writeAt dat _ _
    · rw [Layout.setData, Layout.entry_setEntry_of_ne hpo]
      refine (h.data p hp).writeAt ?_
      rw [hwritten, List.length_append, List.length_singleton, ← Rec.datlen]
      exact h.apart p hp o ho hpo
  · intro p hp q hq hne
    rw [(hdat p).1, (hdat p).2, (hdat q).1, (hdat q).2]
    exact h.apart p hp q hq hne
  · intro p hp
    by_cases hpo : p = o
    · subst hpo
      have hok := h.ok p hp
      rw [Layout.entry_setData_self]
      refine ⟨hok.sep, hok.key, hzero, ?_, ?_, ?_⟩
      · rw [htext]
        exact hok.min
      · rw [htext]
        exact hok.max
      · exact (Nat.le_of_eq (congrArg (· + 1) hlen)).trans hok.datmax
    · rw [Layout.setData, Layout.entry_setEntry_of_ne hpo]
      exact h.ok p hp
  · rw [hlength]
    exact h.dat_max

/-- The index record of some data is overwritten by another one that is equally long. -/
theorem setKey (h : L.Fits idx dat) (ho : o ∈ L.offs) {key : List UInt8}
    (hlen : key.length = (L.entry o).key.length) (hsep : SEP ∉ key) (hzero : 0 ∉ key)
    (hv : ∀ p, v = some p → p ∈ L.offs) :
    ((L.setKey o key).setNext o v).Fits
      (writeAt idx o (ptrText v ++ ({ L.entry o with key := key } : Rec).body)) dat := by
  have hok := h.ok o ho
  have htext : ({ L.entry o with key := key } : Rec).text.length = (L.entry o).text.length :=
    Rec.length_text_eq hlen rfl rfl
  have hok' : ({ L.entry o with key := key } : Rec).Ok :=
    ⟨hsep, hzero, hok.data, htext ▸ hok.min, htext ▸ hok.max, hok.datmax⟩
  unfold Layout.setKey
  generalize hr : ({ L.entry o with key := key } : Rec) = r at *
  have hdata : r.datoff = (L.entry o).datoff ∧ r.datlen = (L.entry o).datlen ∧
      r.data = (L.entry o).data := by
    rw [← hr]
    exact ⟨rfl, rfl, rfl⟩
  have hbody : r.body.length = (L.entry o).body.length := by
    rw [hok'.length_body, hok.length_body, htext]
  have hptr := h.length_ptrText_of hv
  have hwritten : (ptrText v ++ r.body).length = L.size o := by
    rw [List.length_append, hptr, hbody, Layout.size]
  have hlength : (writeAt idx o (ptrText v ++ r.body)).length = idx.length :=
    length_writeAt_of_le (by rw [hwritten]; exact (h.bounds ho).2)
  have hwin := window_append.mp (window_writeAt idx o (ptrText v ++ r.body))
  have hentry : ∀ p, p ≠ o → ((L.setEntry o r).setNext o v).entry p = L.entry p := fun p hp =>
    Layout.entry_setEntry_of_ne hp
  have hself : ((L.setEntry o r).setNext o v).entry o = r := Layout.entry_setEntry_self
  refine ⟨?_, ?_, ?_, ?_, ?_, ?_, ?_, h.ptr_max, ?_, h.dat_max⟩
  · intro t ht
    by_cases hto : t = o
    · subst hto
      rw [Layout.next_setNext_self]
      exact hwin.1
    · have hapart := h.slot_apart ht (Or.inr ho) hto
      have hapart' := h.slot_apart_body ht ho
      rw [Layout.next_setNext_of_ne hto]
      refine (h.ptr t ht).writeAt ?_
      rw [h.length_ptrText ht, hwritten, Layout.size]
      omega
  · intro p hp
    by_cases hpo : p = o
    · subst hpo
      rw [hself, ← hptr]
      exact hwin.2
    · have hapart := h.laid.apart hp ho hpo
      unfold Layout.size at hapart
      rw [hentry p hpo]
      refine (h.body p hp).writeAt ?_
      rw [hwritten, Layout.size]
      omega
  · rw [hlength]
    refine h.laid.congr fun p _ => ?_
    by_cases hpo : p = o
    · subst hpo
      rw [Layout.size, hself, hbody, Layout.size]
    · rw [Layout.size, hentry p hpo, Layout.size]
  · intro p hp
    by_cases hpo : p = o
    · subst hpo
      rw [hself, hdata.1, hdata.2.2]
      exact h.data p hp
    · rw [hentry p hpo]
      exact h.data p hp
  · have hdat : ∀ p, (((L.setEntry o r).setNext o v).entry p).datoff = (L.entry p).datoff ∧
        (((L.setEntry o r).setNext o v).entry p).datlen = (L.entry p).datlen := by
      intro p
      by_cases hpo : p = o
      · subst hpo
        rw [hself]
        exact ⟨hdata.1, hdata.2.1⟩
      · rw [hentry p hpo]
        exact ⟨rfl, rfl⟩
    intro p hp q hq hne
    rw [(hdat p).1, (hdat p).2, (hdat q).1, (hdat q).2]
    exact h.apart p hp q hq hne
  · intro p hp
    by_cases hpo : p = o
    · subst hpo
      rw [hself]
      exact hok'
    · rw [hentry p hpo]
      exact h.ok p hp
  · intro t p ht hp
    by_cases hto : t = o
    · subst hto
      rw [Layout.next_setNext_self] at hp
      exact hv p hp
    · rw [Layout.next_setNext_of_ne hto] at hp
      exact h.next_mem t p ht hp
  · rw [hlength]
    exact h.idx_max

/-- Data are appended to the data file. -/
theorem appendData (h : L.Fits idx dat) {d : List UInt8} (hmax : dat.length + d.length ≤ OFF_MAX) :
    L.Fits idx (dat ++ d) := by
  refine ⟨h.ptr, h.body, h.laid, fun o ho => ?_, h.apart, h.ok, h.next_mem, h.ptr_max,
    h.idx_max, ?_⟩
  · exact (window_append_left d ((h.data o ho).add_length_le (by simp))).mpr (h.data o ho)
  · rwa [List.length_append]

/-- The end of the index file is no place of a record. -/
theorem length_notMem (h : L.Fits idx dat) : idx.length ∉ L.offs := by
  intro ho
  have hle := (h.bounds ho).2
  unfold Layout.size PTR_SZ at hle
  omega

/-- The end of the index file is no place of a pointer. -/
theorem length_ne (h : L.Fits idx dat) (hs : L.Slot s) : idx.length ≠ s := by
  have hle := h.slot_le hs
  unfold PTR_SZ at hle
  omega

/-- An index record is appended to the index file. -/
theorem append (h : L.Fits idx dat) (hr : r.Ok)
    (hdat : Window dat r.datoff (r.data ++ [NEWLINE]))
    (hapart : ∀ p ∈ L.offs, (L.entry p).datoff + (L.entry p).datlen ≤ r.datoff)
    (hmax : (idx.length : ℤ) ≤ PTR_MAX) (hv : ∀ p, v = some p → p ∈ L.offs) :
    ((L.append idx.length r).setNext idx.length v).Fits
      (writeAt idx idx.length (ptrText v ++ r.body)) dat := by
  have hnotMem := h.length_notMem
  have hptr := h.length_ptrText_of hv
  have hbodylen := hr.length_body
  have hmax' := hr.max
  have hwin := window_append.mp (window_writeAt idx idx.length (ptrText v ++ r.body))
  have hne : ∀ p ∈ L.offs, p ≠ idx.length := fun p hp heq => hnotMem (heq ▸ hp)
  have hself : ((L.append idx.length r).setNext idx.length v).entry idx.length = r :=
    Layout.entry_append_self
  have hentry : ∀ p ∈ L.offs,
      ((L.append idx.length r).setNext idx.length v).entry p = L.entry p := fun p hp =>
    Layout.entry_append_of_ne (hne p hp)
  have hsizeof : ((L.append idx.length r).setNext idx.length v).size idx.length =
      (ptrText v ++ r.body).length := by
    rw [Layout.size, hself, List.length_append, hptr]
  have hslot : ∀ t, ((L.append idx.length r).setNext idx.length v).Slot t →
      t = idx.length ∨ L.Slot t := by
    rintro t (hk | ht)
    · exact Or.inr (Or.inl hk)
    · rcases List.mem_append.mp ht with ht | ht
      · exact Or.inr (Or.inr ht)
      · exact Or.inl (List.mem_singleton.mp ht)
  have hmem : ∀ p, p ∈ L.offs ++ [idx.length] → p ∈ L.offs ∨ p = idx.length := fun p hp =>
    (List.mem_append.mp hp).imp_right List.mem_singleton.mp
  refine ⟨?_, ?_, ?_, ?_, ?_, ?_, ?_, ?_, ?_, h.dat_max⟩
  · intro t ht
    rcases hslot t ht with rfl | ht
    · rw [Layout.next_setNext_self]
      exact hwin.1
    · rw [Layout.next_setNext_of_ne (h.length_ne ht).symm]
      refine (h.ptr t ht).writeAt (Or.inl ?_)
      rw [h.length_ptrText ht]
      exact h.slot_le ht
  · intro p hp
    rcases hmem p hp with hp | rfl
    · have hle := (h.bounds hp).2
      rw [hentry p hp]
      refine (h.body p hp).writeAt (Or.inl ?_)
      unfold Layout.size at hle
      omega
    · rw [hself, ← hptr]
      exact hwin.2
  · rw [writeAt_length, List.length_append, ← hsizeof]
    refine LaidOut.concat (h.laid.congr fun p hp => ?_)
    rw [Layout.size, hentry p hp, Layout.size]
  · intro p hp
    rcases hmem p hp with hp | rfl
    · rw [hentry p hp]
      exact h.data p hp
    · rw [hself]
      exact hdat
  · intro p hp q hq hpq
    rcases hmem p hp with hp | rfl <;> rcases hmem q hq with hq | rfl
    · rw [hentry p hp, hentry q hq]
      exact h.apart p hp q hq hpq
    · rw [hentry p hp, hself]
      exact Or.inl (hapart p hp)
    · rw [hentry q hq, hself]
      exact Or.inr (hapart q hq)
    · exact absurd rfl hpq
  · intro p hp
    rcases hmem p hp with hp | rfl
    · rw [hentry p hp]
      exact h.ok p hp
    · rw [hself]
      exact hr
  · intro t p ht hp
    rcases hslot t ht with rfl | ht
    · rw [Layout.next_setNext_self] at hp
      exact List.mem_append_left _ (hv p hp)
    · rw [Layout.next_setNext_of_ne (h.length_ne ht).symm] at hp
      exact List.mem_append_left _ (h.next_mem t p ht hp)
  · intro p hp
    rcases hmem p hp with hp | rfl
    · exact h.ptr_max p hp
    · exact hmax
  · rw [writeAt_length, List.length_append, List.length_append, hptr, hbodylen]
    unfold PTR_MAX at hmax
    unfold IDXLEN_MAX at hmax'
    unfold OFF_MAX PTR_SZ IDXLEN_SZ
    omega

end Layout.Fits

section Write

variable {L : Layout} {db : DB} {o s : ℕ} {r : Rec} {v : Option ℕ}

/-- `_db_writeptr` writes the pointer. -/
theorem Layout.Fits.writeptr (h : L.Fits db.idx db.dat) (hs : L.Slot s)
    (hv : ∀ p, v = some p → p ∈ L.offs) :
    db_writeptr s (v.getD 0 : ℕ) db =
      .ok ((), { db with idx := writeAt db.idx s (ptrText v), pos := s + PTR_SZ }) := by
  have hlen := h.length_ptrText_of hv
  have hle := h.slot_le hs
  have hmax := h.idx_max
  unfold db_writeptr
  rw [bind_checkPtr (Int.natCast_nonneg _) (h.ptr_le hv), bind_seekIdx]
  refine (writeIdx_eq ?_).trans ?_
  · show s + (ptrText v).length ≤ OFF_MAX
    omega
  · show _ = Except.ok ((), _)
    rw [← hlen]
    rfl

/-- `_db_writeidx` writes the pointer and the record behind it. -/
theorem writeidx_eq (hkey : db.datoff = r.datoff) (hlen : db.datlen = r.datlen)
    (hmin : IDXLEN_MIN ≤ r.text.length) (hmax : r.text.length ≤ IDXLEN_MAX)
    (hv : ((v.getD 0 : ℕ) : ℤ) ≤ PTR_MAX) {offset : ℕ} {whence : Whence}
    (hend : whence.lseek db.idx.length offset + (ptrText v ++ r.body).length ≤ OFF_MAX) :
    db_writeidx r.key offset whence (v.getD 0 : ℕ) db = .ok ((), { db with
      idx := writeAt db.idx (whence.lseek db.idx.length offset) (ptrText v ++ r.body)
      pos := whence.lseek db.idx.length offset + (ptrText v ++ r.body).length
      idxbuf := cstr r.text
      idxoff := whence.lseek db.idx.length offset
      ptrval := (v.getD 0 : ℕ) }) := by
  have htext : idxText r.key db.datoff db.datlen = r.text := by
    rw [hkey, hlen]
    rfl
  have hbytes : asciiPtr (v.getD 0 : ℕ) ++ padLeft IDXLEN_SZ (decimal r.text.length) ++ r.text =
      ptrText v ++ r.body := List.append_assoc ..
  have hsprintf : sprintfIdx (idxText r.key db.datoff db.datlen) = some r.text := by
    rw [htext]
    exact if_pos (by omega)
  unfold db_writeidx
  rw [bind_modify, bind_checkPtr (Int.natCast_nonneg _) hv, bind_get]
  show (defined (sprintfIdx (idxText r.key db.datoff db.datlen)) >>= _) _ = _
  rw [bind_defined hsprintf, bind_dumpIf (by omega), bind_set, hbytes]
  exact writeIdx_eq hend

/-- `_db_writedat` writes data of a record over others that are equally long. -/
theorem Layout.Fits.writedat (h : L.Fits db.idx db.dat) (ho : o ∈ L.offs) {data : List UInt8}
    (hlen : data.length = (L.entry o).data.length) :
    db_writedat data (L.entry o).datoff .SEEK_SET db = .ok ((), { db with
      dat := writeAt db.dat (L.entry o).datoff (data ++ [NEWLINE])
      datoff := (L.entry o).datoff
      datlen := (L.entry o).datlen }) := by
  have hle := (h.data o ho).add_length_le (by simp)
  have hmax := h.dat_max
  rw [List.length_append, List.length_singleton] at hle
  have hoff : ¬OFF_MAX <
      Whence.lseek db.dat.length (L.entry o).datoff .SEEK_SET + (data.length + 1) := by
    show ¬OFF_MAX < (L.entry o).datoff + (data.length + 1)
    omega
  unfold db_writedat
  rw [bind_get, bind_dumpIf hoff, hlen]
  rfl

/-- `_db_writedat` appends data. -/
theorem appenddat_eq {data : List UInt8} (h : db.dat.length + (data.length + 1) ≤ OFF_MAX) :
    db_writedat data 0 .SEEK_END db = .ok ((), { db with
      dat := db.dat ++ (data ++ [NEWLINE])
      datoff := db.dat.length
      datlen := data.length + 1 }) := by
  have hwrite : db.dat ++ (data ++ [NEWLINE]) = writeAt db.dat db.dat.length (data ++ [NEWLINE]) :=
    (writeAt_length _ _).symm
  have hoff : ¬OFF_MAX < Whence.lseek db.dat.length 0 .SEEK_END + (data.length + 1) := by
    show ¬OFF_MAX < db.dat.length + 0 + (data.length + 1)
    omega
  unfold db_writedat
  rw [bind_get, bind_dumpIf hoff, hwrite]
  rfl

end Write

end CxxPandora.Apue.Db
