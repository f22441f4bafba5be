import CxxPandora.Lib.Fields
import CxxPandora.Lib.Windows
import CxxPandora.Lib.Words

/-!
# The database library

`linux/apue.3e.exs/apue3/apue.3e/db/db.c`, function by function. The index file starts with the
pointer to the free list and a table of pointers to hash chains. Behind them stand the index
records, each with the pointer to the next record of its list, the length of what follows, the key,
and the place of its data in the data file. Everything in the index file is text.

One process works on the database at a time, so that the record locks never wait and are left out.
A call of the system fails when it is asked for what cannot be: a position before the start of a
file, or a file that does not fit an `off_t`. A loop over a list has as many rounds as the index
file has bytes, which is more than any list that ends has records.

`_db_dodelete` has `sprintf` put a string into the buffer that it is in. The C standard leaves open
what happens then, and so does the model: it is a parameter (`Overlap`) of the functions that
delete.
-/

namespace CxxPandora.Apue.Db

open Lib

/-! ## Constants -/

/-- The width of the length of an index record. -/
def IDXLEN_SZ : ℕ := 4

/-- The separator of an index record. -/
def SEP : UInt8 := 58

/-- The blank, which a deleted record is overwritten with. -/
def SPACE : UInt8 := 32

/-- The end of a record. -/
def NEWLINE : UInt8 := 10

/-- The width of a pointer. -/
def PTR_SZ : ℕ := 7

/-- The greatest pointer. -/
def PTR_MAX : ℤ := 9999999

/-- The number of hash chains. -/
def NHASH_DEF : ℕ := 137

/-- The place of the pointer to the free list. -/
def FREE_OFF : ℕ := 0

/-- The place of the table of hash chains. -/
def HASH_OFF : ℕ := PTR_SZ

/-- Bounds of the length of an index record. -/
def IDXLEN_MIN : ℕ := 6

@[inherit_doc IDXLEN_MIN]
def IDXLEN_MAX : ℕ := 1024

/-- Bounds of the length of a data record. -/
def DATLEN_MIN : ℕ := 2

@[inherit_doc DATLEN_MIN]
def DATLEN_MAX : ℕ := 1024

/-- The flags of `db_store`: insert a new record only, replace an existing one only, or either. -/
def DB_INSERT : ℤ := 1

@[inherit_doc DB_INSERT]
def DB_REPLACE : ℤ := 2

@[inherit_doc DB_INSERT]
def DB_STORE : ℤ := 3

/-- The greatest size of a file. -/
def OFF_MAX : ℕ := 2^63 - 1

/-! ## The handle -/

/-- How the library ends the process, a list that has no end, and what is undefined. -/
inductive DbError
  | err_dump (msg : String)
  | err_quit (msg : String) (ptr : ℤ)
  | loops
  | undefined
  deriving DecidableEq

/-- The two files, and the handle of the process. The buffers stand for the strings in them. -/
structure DB where
  /-- The index file. -/
  idx : List UInt8
  /-- The data file. -/
  dat : List UInt8
  /-- The offset of the descriptor of the index file. That of the data file is set before each of
  its uses. -/
  pos : ℕ
  /-- The key in the buffer for index records. -/
  idxbuf : List UInt8
  /-- The data in the buffer for data records. -/
  datbuf : List UInt8
  /-- The place of the index record. -/
  idxoff : ℕ
  /-- The length of the index record. -/
  idxlen : ℕ
  /-- The place of the data record. -/
  datoff : ℕ
  /-- The length of the data record. -/
  datlen : ℕ
  /-- The pointer in the index record. -/
  ptrval : ℤ
  /-- The place of the pointer to the index record. -/
  ptroff : ℤ
  /-- The place of the pointer to the hash chain. -/
  chainoff : ℕ
  deriving DecidableEq

/-- What a function of the library does with the handle. -/
abbrev DbM := StateT DB (Except DbError)

/-- `err_dump` under a condition. -/
def dumpIf (c : Prop) [Decidable c] (msg : String) : DbM Unit :=
  if c then throw (.err_dump msg) else pure ()

/-- A value that may be undefined. -/
def defined {α : Type} : Option α → DbM α
  | some a => pure a
  | none => throw .undefined

/-- `lseek` on the index file, from its start. -/
def seekIdx (offset : ℤ) (msg : String) : DbM Unit := do
  dumpIf (offset < 0) msg
  modify fun db => { db with pos := offset.toNat }

/-- `read` from the index file. -/
def readIdx (n : ℕ) : DbM (List UInt8) := do
  let db ← get
  let bytes := readAt db.idx db.pos n
  set { db with pos := db.pos + bytes.length }
  return bytes

/-- `write` to the index file. -/
def writeIdx (bytes : List UInt8) (msg : String) : DbM Unit := do
  let db ← get
  dumpIf (OFF_MAX < db.pos + bytes.length) msg
  set { db with idx := writeAt db.idx db.pos bytes, pos := db.pos + bytes.length }

/-- `strchr`: the index of the first such character. -/
def strchr (s : List UInt8) (c : UInt8) : Option ℕ := s.idxOf? c

/-! ## Pointers -/

/-- `_db_readptr`. -/
def db_readptr (offset : ℤ) : DbM ℤ := do
  seekIdx offset "_db_readptr: lseek error to ptr field"
  let asciiptr ← readIdx PTR_SZ
  dumpIf (asciiptr.length ≠ PTR_SZ) "_db_readptr: read error of ptr field"
  return atol asciiptr

/-- A pointer as the text in a file. -/
def asciiPtr (ptrval : ℤ) : List UInt8 := padLeft PTR_SZ (decimal ptrval.toNat)

/-- The check of a pointer that is about to be written. -/
def checkPtr (ptrval : ℤ) (msg : String) : DbM Unit :=
  if ptrval < 0 ∨ PTR_MAX < ptrval then throw (.err_quit msg ptrval) else pure ()

/-- `_db_writeptr`. -/
def db_writeptr (offset ptrval : ℤ) : DbM Unit := do
  checkPtr ptrval "_db_writeptr: invalid ptr: %d"
  seekIdx offset "_db_writeptr: lseek error to ptr field"
  writeIdx (asciiPtr ptrval) "_db_writeptr: write error of ptr field"

/-! ## Index records -/

/-- The part of `_db_readidx` that finds the separators in the text of an index record. -/
def splitIdx (text : List UInt8) : DbM Unit :=
  match strchr text SEP with
  | none => throw (.err_dump "_db_readidx: missing first separator")
  | some i =>
    let ptr1 := text.drop (i + 1)
    match strchr ptr1 SEP with
    | none => throw (.err_dump "_db_readidx: missing second separator")
    | some j => do
      let ptr2 := ptr1.drop (j + 1)
      dumpIf (strchr ptr2 SEP ≠ none) "_db_readidx: too many separators"
      let datoff := atol (ptr1.take j)
      dumpIf (datoff < 0) "_db_readidx: starting offset < 0"
      let datlen := toSize (atol ptr2)
      dumpIf (datlen = 0 ∨ DATLEN_MAX < datlen) "_db_readidx: invalid length"
      modify fun db =>
        { db with idxbuf := text.take i, datoff := datoff.toNat, datlen := datlen }

/-- The `lseek` of `_db_readidx`, where the offset 0 stands for the current one. -/
def seekRecord (offset : ℤ) : DbM Unit :=
  if offset = 0 then pure () else seekIdx offset "_db_readidx: lseek error"

/-- `_db_readidx`. -/
def db_readidx (offset : ℤ) : DbM ℤ := do
  seekRecord offset
  modify fun db => { db with idxoff := db.pos }
  let iov ← readIdx (PTR_SZ + IDXLEN_SZ)
  if iov.length = 0 ∧ offset = 0 then return -1 else
    dumpIf (iov.length ≠ PTR_SZ + IDXLEN_SZ) "_db_readidx: readv error of index record"
    let ptrval := atol (iov.take PTR_SZ)
    let idxlen := toSize (toInt (atol (iov.drop PTR_SZ)))
    modify fun db => { db with ptrval := ptrval, idxlen := idxlen }
    dumpIf (idxlen < IDXLEN_MIN ∨ IDXLEN_MAX < idxlen) "_db_readidx: invalid length"
    let buf ← readIdx idxlen
    dumpIf (buf.length ≠ idxlen) "_db_readidx: read error of index record"
    dumpIf (buf.getLast? ≠ some NEWLINE) "_db_readidx: missing newline"
    splitIdx (cstr buf.dropLast)
    return ptrval

/-- Where a write starts: at an offset from the start of the file, or at its end. -/
inductive Whence
  | SEEK_SET
  | SEEK_END

/-- The position that `lseek` goes to in a file of `size` bytes. -/
def Whence.lseek (size offset : ℕ) : Whence → ℕ
  | .SEEK_SET => offset
  | .SEEK_END => size + offset

/-- The text of an index record behind its pointer and its length. -/
def idxText (key : List UInt8) (datoff datlen : ℕ) : List UInt8 :=
  key ++ SEP :: decimal datoff ++ SEP :: decimal datlen ++ [NEWLINE]

/-- `sprintf` to the buffer for index records: undefined when the text and its NUL do not fit. -/
def sprintfIdx (text : List UInt8) : Option (List UInt8) :=
  if text.length + 1 ≤ IDXLEN_MAX + 2 then some text else none

/-- `_db_writeidx`. -/
def db_writeidx (key : List UInt8) (offset : ℕ) (whence : Whence) (ptrval : ℤ) : DbM Unit := do
  modify fun db => { db with ptrval := ptrval }
  checkPtr ptrval "_db_writeidx: invalid ptr: %d"
  let db ← get
  let text ← defined (sprintfIdx (idxText key db.datoff db.datlen))
  let len := text.length
  dumpIf (len < IDXLEN_MIN ∨ IDXLEN_MAX < len) "_db_writeidx: invalid length"
  let pos := whence.lseek db.idx.length offset
  set { db with idxbuf := cstr text, idxoff := pos, pos := pos }
  writeIdx (asciiPtr ptrval ++ padLeft IDXLEN_SZ (decimal len) ++ text)
    "_db_writeidx: writev error of index record"

/-! ## Data records -/

/-- `_db_readdat`. -/
def db_readdat : DbM (List UInt8) := do
  let db ← get
  let buf := readAt db.dat db.datoff db.datlen
  dumpIf (buf.length ≠ db.datlen) "_db_readdat: read error"
  dumpIf (buf.getLast? ≠ some NEWLINE) "_db_readdat: missing newline"
  set { db with datbuf := cstr buf.dropLast }
  return cstr buf.dropLast

/-- `_db_writedat`. -/
def db_writedat (data : List UInt8) (offset : ℕ) (whence : Whence) : DbM Unit := do
  let db ← get
  let datoff := whence.lseek db.dat.length offset
  let datlen := data.length + 1
  dumpIf (OFF_MAX < datoff + datlen) "_db_writedat: writev error of data record"
  set { db with
    dat := writeAt db.dat datoff (data ++ [NEWLINE]), datoff := datoff, datlen := datlen }

/-! ## Lists of records -/

/-- `_db_hash`: the sum of the characters times their positions, from 1 on, in an unsigned long. The
products and the positions are of type `int`, and undefined when they overflow. -/
def db_hash (key : List UInt8) : Option ℕ :=
  ((key.zipIdx 1).foldlM (fun hval p =>
    (checkInt (charVal p.1 * p.2)).bind fun prod =>
      (checkInt ((p.2 : ℤ) + 1)).map fun _ => sizeAdd hval (toSize prod)) 0).map (· % NHASH_DEF)

/-- The loop of `_db_find_and_lock` over at most `n` records: the record with the key, or 0. -/
def findLoop (key : List UInt8) : ℕ → ℤ → DbM ℤ
  | n, offset =>
    if offset = 0 then return 0
    else
      match n with
      | 0 => throw .loops
      | n + 1 => do
        let nextoffset ← db_readidx offset
        let db ← get
        if db.idxbuf = key then return offset
        else
          set { db with ptroff := offset }
          findLoop key n nextoffset

/-- `_db_find_and_lock`, without the lock: whether the record was found. -/
def db_find (key : List UInt8) : DbM Bool := do
  let chainoff := (← defined (db_hash key)) * PTR_SZ + HASH_OFF
  modify fun db => { db with chainoff := chainoff, ptroff := chainoff }
  let offset ← db_readptr chainoff
  let offset ← findLoop key (← get).idx.length offset
  return offset ≠ 0

/-- The loop of `_db_findfree` over at most `n` records: the record that matches, or 0, and the
place of the pointer to it. -/
def freeLoop (keylen datlen : ℕ) : ℕ → ℤ → ℤ → DbM (ℤ × ℤ)
  | n, saveoffset, offset =>
    if offset = 0 then return (0, saveoffset)
    else
      match n with
      | 0 => throw .loops
      | n + 1 => do
        let nextoffset ← db_readidx offset
        let db ← get
        if db.idxbuf.length = keylen ∧ db.datlen = datlen then return (offset, saveoffset)
        else freeLoop keylen datlen n offset nextoffset

/-- `_db_findfree`: whether a free record of the right sizes was found and taken. -/
def db_findfree (keylen datlen : ℕ) : DbM Bool := do
  let offset ← db_readptr FREE_OFF
  let (offset, saveoffset) ← freeLoop keylen datlen (← get).idx.length FREE_OFF offset
  if offset = 0 then return false
  else
    db_writeptr saveoffset (← get).ptrval
    return true

/-- What `sprintf` puts for `%s` at the start of a buffer when the string is there itself; `none`
when it does not go on. -/
abbrev Overlap := List UInt8 → Option (List UInt8)

/-- `_db_dodelete`. The key that `_db_writeidx` is given is in the buffer that it prints to. -/
def db_dodelete (overlap : Overlap) : DbM Unit := do
  modify fun db => { db with
    datbuf := List.replicate (db.datlen - 1) SPACE
    idxbuf := List.replicate db.idxbuf.length SPACE }
  let db ← get
  db_writedat db.datbuf db.datoff .SEEK_SET
  let freeptr ← db_readptr FREE_OFF
  db_writeidx (← defined (overlap db.idxbuf)) db.idxoff .SEEK_SET freeptr
  db_writeptr FREE_OFF db.idxoff
  db_writeptr db.ptroff db.ptrval

/-! ## The interface -/

/-- `db_fetch`: the data, or `none` when there is no such record. -/
def db_fetch (key : CString) : DbM (Option (List UInt8)) := do
  if ← db_find key.chars then return some (← db_readdat) else return none

/-- `db_delete`: 0, or -1 when there is no such record. -/
def db_delete (overlap : Overlap) (key : CString) : DbM ℤ := do
  if ← db_find key.chars then
    db_dodelete overlap
    return 0
  else return -1

/-- The new record of `db_store` at the ends of the files, in front of its hash chain. -/
def db_append (key data : List UInt8) (ptrval : ℤ) : DbM Unit := do
  db_writedat data 0 .SEEK_END
  db_writeidx key 0 .SEEK_END ptrval
  let db ← get
  db_writeptr db.chainoff db.idxoff

/-- The new record of `db_store` in the free record just found, in front of its hash chain. -/
def db_reuse (key data : List UInt8) (ptrval : ℤ) : DbM Unit := do
  db_writedat data (← get).datoff .SEEK_SET
  db_writeidx key (← get).idxoff .SEEK_SET ptrval
  let db ← get
  db_writeptr db.chainoff db.idxoff

/-- The part of `db_store` that stores a record that does not exist. -/
def db_insert (key data : List UInt8) : DbM Unit := do
  let ptrval ← db_readptr (← get).chainoff
  if ← db_findfree key.length (data.length + 1) then db_reuse key data ptrval
  else db_append key data ptrval

/-- The part of `db_store` that replaces the record that has been found. -/
def db_replace (overlap : Overlap) (key data : List UInt8) : DbM Unit := do
  let db ← get
  if data.length + 1 ≠ db.datlen then
    db_dodelete overlap
    let ptrval ← db_readptr (← get).chainoff
    db_append key data ptrval
  else db_writedat data db.datoff .SEEK_SET

/-- `db_store`: 0, 1 when the record exists and is not to be replaced, and -1 when it does not exist
and is not to be inserted, or the flag is unknown. -/
def db_store (overlap : Overlap) (key data : CString) (flag : ℤ) : DbM ℤ := do
  if flag ≠ DB_INSERT ∧ flag ≠ DB_REPLACE ∧ flag ≠ DB_STORE then return -1
  else
    let datlen := data.chars.length + 1
    dumpIf (datlen < DATLEN_MIN ∨ DATLEN_MAX < datlen) "db_store: invalid data length"
    if ← db_find key.chars then
      if flag = DB_INSERT then return 1
      else
        db_replace overlap key.chars data.chars
        return 0
    else if flag = DB_REPLACE then return -1
    else
      db_insert key.chars data.chars
      return 0

/-- `db_rewind`. -/
def db_rewind : DbM Unit :=
  modify fun db => { db with
    pos := (NHASH_DEF + 1) * PTR_SZ + 1, idxoff := (NHASH_DEF + 1) * PTR_SZ + 1 }

/-- The loop of `db_nextrec`, over at most `n` records. -/
def nextLoop : ℕ → DbM (Option (List UInt8 × List UInt8))
  | 0 => throw .loops
  | n + 1 => do
    if (← db_readidx 0) < 0 then return none
    else
      let db ← get
      if db.idxbuf.all (· == SPACE) then nextLoop n
      else return some (db.idxbuf, ← db_readdat)

/-- `db_nextrec`: the key and the data of the next record, or `none` at the end. -/
def db_nextrec : DbM (Option (List UInt8 × List UInt8)) := do
  nextLoop ((← get).idx.length + 1)

/-! ## Opening a database -/

/-- `open` of one file: its content, if it is there. -/
def openFile (creat trunc : Bool) : Option (List UInt8) → Option (List UInt8)
  | none => if creat then some [] else none
  | some bytes => some (if trunc then [] else bytes)

/-- The text that a new index file starts with: the free list pointer and the hash table, all 0. -/
def initIdx : List UInt8 :=
  (List.replicate (NHASH_DEF + 1) (padLeft PTR_SZ (decimal 0))).flatten ++ [NEWLINE]

/-- `db_open`, on an index file and a data file that may exist; `none` when they cannot be opened.
An index file is set up only when it is both created and truncated. -/
def db_open (creat trunc : Bool) (idx dat : Option (List UInt8)) : Option DB := do
  let idx ← openFile creat trunc idx
  let dat ← openFile creat trunc dat
  let idx := if creat && trunc && idx.isEmpty then initIdx else idx
  let pos := (NHASH_DEF + 1) * PTR_SZ + 1
  return { idx, dat, pos, idxbuf := [], datbuf := [], idxoff := pos, idxlen := 0, datoff := 0,
           datlen := 0, ptrval := 0, ptroff := 0, chainoff := 0 }

end CxxPandora.Apue.Db
