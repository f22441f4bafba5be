import CxxPandora.Lib.Machine
import CxxPandora.Lib.Slots
import Mathlib.Data.Finset.Card

/-!
# The select echo server

The loop of `linux/socket/select/server.cpp`, with the descriptors that the process has open. A
label carries what the kernel chooses: the readiness set and the count that `select` returns, the
descriptor that `accept` returns, the bytes that `read` stores, and what `write` returns.

Four variables tell of the clients: `client`, `allset`, `maxi` and `maxfd`. They agree as long as
every descriptor is below `FD_SETSIZE` (`Inv.step`). `accept` may return a greater one, which
`FD_SET` is then given although it is outside of the set.
-/

namespace CxxPandora.Select

open Lib

/-! ## The model -/

/-- `FD_SETSIZE`. -/
def fdSetSize : ℕ := 1024

/-- `MAX_LINE`. -/
def maxLine : ℕ := 2048

/-- Where the program is. -/
inductive Pc
  /-- About to call `select`. -/
  | select
  /-- About to call `accept`. -/
  | accept
  /-- About to read from the descriptor in `client[i]`. -/
  | read (i : ℕ)
  /-- About to write back the `n` bytes read from the descriptor in `client[i]`. -/
  | write (i n : ℕ)
  /-- `exit(1)`. -/
  | exited
  /-- `FD_SET` was given a descriptor outside of the set. -/
  | overset
  /-- `printf` went on behind the end of `buf`. -/
  | overread
  deriving DecidableEq, Repr

/-- The variables of the program, and the descriptors that are open. -/
structure State where
  client : ℕ → ℤ
  maxi : ℤ
  maxfd : ℕ
  allset : Finset ℕ
  rset : Finset ℕ
  nready : ℤ
  opened : Finset ℕ
  pc : Pc

/-- Before the first `select`: `rset` and `nready` hold whatever they held. -/
def State.start (listenfd : ℕ) (opened rset : Finset ℕ) (nready : ℤ) : State where
  client _ := -1
  maxi := -1
  maxfd := listenfd
  allset := {listenfd}
  rset := rset
  nready := nready
  opened := opened
  pc := if listenfd < fdSetSize then .select else .overset

/-- What happens next. -/
inductive Event
  /-- `select` returns `nready` and the readiness set `rset`. -/
  | select (nready : ℤ) (rset : Finset ℕ)
  /-- `accept` returns `connfd`. -/
  | accept (connfd : ℕ)
  /-- `accept` fails. -/
  | acceptFail
  /-- `read` stores the bytes `bs`. -/
  | read (bs : List UInt8)
  /-- `read` returns zero, or fails. -/
  | readFail
  /-- `write` returns `ret`. -/
  | write (ret : ℤ)
  deriving DecidableEq

/-- `client[i]` holds a descriptor, and it is in `rset`. -/
def State.ready (s : State) (i : ℕ) : Bool :=
  decide (0 ≤ s.client i ∧ (s.client i).toNat ∈ s.rset)

/-- The loop over `client[i..maxi]`: it comes to the next descriptor that is ready, or back to
`select`. -/
def State.next (s : State) (i : ℕ) : Pc :=
  match firstIn s.ready i (s.maxi + 1).toNat with
  | some j => .read j
  | none => .select

/-- `select` keeps a part of `allset` in `rset`. -/
def State.select (s : State) (listenfd : ℕ) (nready : ℤ) (rset : Finset ℕ) : Option State :=
  if rset ⊆ s.allset then
    let s := { s with rset := rset, nready := nready }
    some { s with pc := if listenfd ∈ rset then .accept else s.next 0 }
  else none

/-- The first slot that is free. -/
def State.free (s : State) : Option ℕ := firstIn (fun i => decide (s.client i < 0)) 0 fdSetSize

/-- `connfd` becomes a client, in slot `i`. -/
def State.store (s : State) (i connfd : ℕ) : State :=
  { s with
    client := Function.update s.client i connfd
    allset := insert connfd s.allset
    maxfd := if s.maxfd < connfd then connfd else s.maxfd
    maxi := if s.maxi < i then i else s.maxi
    nready := s.nready - 1
    opened := insert connfd s.opened }

/-- `accept` returns a descriptor that is not open. -/
def State.accept (s : State) (connfd : ℕ) : Option State :=
  if connfd ∈ s.opened then none
  else
    match s.free with
    -- `perror("too many connection.\n")`.
    | none => some { s with pc := .exited }
    | some i =>
      if fdSetSize ≤ connfd then some { s with pc := .overset }
      else
        let s := s.store i connfd
        some { s with pc := if s.nready < 0 then .select else s.next 0 }

/-- `client[i]` has been handled. -/
def State.handled (s : State) (i : ℕ) : State :=
  let s := { s with nready := s.nready - 1 }
  { s with pc := if s.nready ≤ 0 then .select else s.next (i + 1) }

/-- `read` stores some bytes in the cleared `buf`, which is printed up to a zero. -/
def State.read (s : State) (i : ℕ) (bs : List UInt8) : Option State :=
  if bs ≠ [] ∧ bs.length ≤ maxLine then
    let buf := bs ++ List.replicate (maxLine - bs.length) 0
    some { s with pc := if (0 : UInt8) ∈ buf then .write i bs.length else .overread }
  else none

/-- The descriptor in `client[i]` is closed, and slot `i` is free. -/
def State.close (s : State) (i : ℕ) : State :=
  { s with
    client := Function.update s.client i (-1)
    allset := s.allset.erase (s.client i).toNat
    opened := s.opened.erase (s.client i).toNat }

/-- `write` is offered `n` bytes. When it does not take them all, the loop is left. -/
def State.write (s : State) (i n : ℕ) (ret : ℤ) : Option State :=
  if -1 ≤ ret ∧ ret ≤ n then
    some (if ret ≠ n then { s with pc := .select } else s.handled i)
  else none

/-- The next system call of the program, and what it does until the one after. -/
def step (listenfd : ℕ) (s : State) (e : Event) : Option State :=
  match s.pc, e with
  | .select, .select nready rset => s.select listenfd nready rset
  | .accept, .accept connfd => s.accept connfd
  | .accept, .acceptFail => some { s with pc := .exited }
  | .read i, .read bs => s.read i bs
  | .read i, .readFail => some ((s.close i).handled i)
  | .write i n, .write ret => s.write i n ret
  | _, _ => none

/-! ## What a step does -/

/-- The outcomes of a step. -/
inductive Outcome (listenfd : ℕ) (s : State) : Event → State → Prop
  | select {nready rset} : s.pc = .select → Outcome listenfd s (.select nready rset)
      { s with
        rset := rset
        nready := nready
        pc := if listenfd ∈ rset then .accept
          else State.next { s with rset := rset, nready := nready } 0 }
  | accept {connfd i} : connfd ∉ s.opened → i < fdSetSize → s.client i < 0 → connfd < fdSetSize →
      Outcome listenfd s (.accept connfd)
        { s.store i connfd with
          pc := if (s.store i connfd).nready < 0 then .select else (s.store i connfd).next 0 }
  | acceptOverset {connfd} : fdSetSize ≤ connfd →
      Outcome listenfd s (.accept connfd) { s with pc := .overset }
  | acceptFull {connfd} : Outcome listenfd s (.accept connfd) { s with pc := .exited }
  | acceptFail : Outcome listenfd s .acceptFail { s with pc := .exited }
  | read {i bs} : s.pc = .read i → Outcome listenfd s (.read bs) { s with pc := .write i bs.length }
  | readOver {bs} : Outcome listenfd s (.read bs) { s with pc := .overread }
  | readFail {i} : s.pc = .read i → Outcome listenfd s .readFail ((s.close i).handled i)
  | write {i n} : s.pc = .write i n → Outcome listenfd s (.write n) (s.handled i)
  | writeShort {ret} : Outcome listenfd s (.write ret) { s with pc := .select }

/-- A step has one of the outcomes. -/
theorem step_outcome {listenfd : ℕ} {s s' : State} {e : Event} (h : step listenfd s e = some s') :
    Outcome listenfd s e s' := by
  unfold step at h
  split at h
  · rename_i hpc
    unfold State.select at h
    split at h
    · obtain rfl := Option.some.inj h
      exact .select hpc
    · exact absurd h.symm (Option.some_ne_none s')
  · unfold State.accept at h
    split at h
    · exact absurd h.symm (Option.some_ne_none s')
    rename_i hopen
    split at h
    · obtain rfl := Option.some.inj h
      exact .acceptFull
    · rename_i i hfree
      obtain ⟨hneg, -, hi, -⟩ := firstIn_eq_some hfree
      split at h
      · rename_i hfd
        obtain rfl := Option.some.inj h
        exact .acceptOverset hfd
      · rename_i hfd
        obtain rfl := Option.some.inj h
        exact .accept hopen hi (of_decide_eq_true hneg) (Nat.lt_of_not_le hfd)
  · obtain rfl := Option.some.inj h
    exact .acceptFail
  · rename_i hpc
    unfold State.read at h
    split at h
    · obtain rfl := Option.some.inj h
      split
      · exact .read hpc
      · exact .readOver
    · exact absurd h.symm (Option.some_ne_none s')
  · rename_i hpc
    obtain rfl := Option.some.inj h
    exact .readFail hpc
  · rename_i hpc
    unfold State.write at h
    split_ifs at h with hret hn
    · obtain rfl := Option.some.inj h
      exact .writeShort
    · obtain rfl := Option.some.inj h
      obtain rfl := not_not.mp hn
      exact .write hpc
  · exact absurd h.symm (Option.some_ne_none s')

/-! ## The tables of the clients -/

/-- What the four tables say of the clients: `allset` holds `listenfd` and the descriptors stored in
`client`, none of them is stored twice, `maxi` bounds their slots, and `maxfd` the descriptors. -/
structure Bookkeeping (listenfd : ℕ) (s : State) : Prop where
  mem_allset : ∀ fd, fd ∈ s.allset ↔ fd = listenfd ∨ Stores fdSetSize s.client fd
  distinct : Distinct fdSetSize s.client
  le_maxi : ∀ i < fdSetSize, 0 ≤ s.client i → (i : ℤ) ≤ s.maxi
  le_maxfd : ∀ fd ∈ s.allset, fd ≤ s.maxfd

/-- The tables agree, the descriptors in them are open and fit into an `fd_set`, and `listenfd` is
no client. -/
structure Tables (listenfd : ℕ) (s : State) : Prop extends Bookkeeping listenfd s where
  lt_size : ∀ fd ∈ s.allset, fd < fdSetSize
  listen_mem : listenfd ∈ s.opened
  listen_notStored : ¬Stores fdSetSize s.client listenfd
  mem_opened : ∀ fd, Stores fdSetSize s.client fd → fd ∈ s.opened
  maxi_lt : s.maxi < fdSetSize

/-- Nothing is stored in free slots. -/
theorem not_stores_free (fd : ℕ) : ¬Stores fdSetSize (fun _ => -1) fd := by
  rintro ⟨i, -, hi⟩
  dsimp only at hi
  omega

/-- The tables at the start. -/
theorem Tables.start {listenfd : ℕ} {opened : Finset ℕ} (hlisten : listenfd ∈ opened)
    (hfits : listenfd < fdSetSize) (rset : Finset ℕ) (nready : ℤ) :
    Tables listenfd (.start listenfd opened rset nready) where
  mem_allset fd := Finset.mem_singleton.trans (or_iff_left (not_stores_free fd)).symm
  distinct _ _ _ _ h := absurd h (Int.negSucc_not_nonneg 0).mp
  le_maxi _ _ h := absurd h (Int.negSucc_not_nonneg 0).mp
  le_maxfd _ hfd := (Finset.mem_singleton.mp hfd).le
  lt_size _ hfd := (Finset.mem_singleton.mp hfd).trans_lt hfits
  listen_mem := hlisten
  listen_notStored := not_stores_free listenfd
  mem_opened fd hfd := absurd hfd (not_stores_free fd)
  maxi_lt := show (-1 : ℤ) < fdSetSize by decide

/-- The tables do not depend on where the program is, nor on what `select` has returned. -/
theorem Tables.goto {listenfd : ℕ} {s : State} (h : Tables listenfd s) (rset : Finset ℕ)
    (nready : ℤ) (pc : Pc) : Tables listenfd { s with rset := rset, nready := nready, pc := pc } :=
  ⟨⟨h.mem_allset, h.distinct, h.le_maxi, h.le_maxfd⟩, h.lt_size, h.listen_mem, h.listen_notStored,
    h.mem_opened, h.maxi_lt⟩

/-- The tables after a descriptor that was not open becomes a client, in a free slot. -/
theorem Tables.store {listenfd : ℕ} {s : State} (h : Tables listenfd s) {i connfd : ℕ}
    (hi : i < fdSetSize) (hfree : s.client i < 0) (hnew : connfd ∉ s.opened)
    (hfits : connfd < fdSetSize) : Tables listenfd (s.store i connfd) := by
  have hstores : ∀ fd, Stores fdSetSize (s.store i connfd).client fd ↔
      fd = connfd ∨ Stores fdSetSize s.client fd := fun fd => stores_store hi hfree
  have hmaxfd : (s.store i connfd).maxfd = if s.maxfd < connfd then connfd else s.maxfd := rfl
  have hmaxi : (s.store i connfd).maxi = if s.maxi < i then (i : ℤ) else s.maxi := rfl
  refine ⟨⟨fun fd => ?_, ?_, fun j hj hpos => ?_, fun fd hfd => ?_⟩, fun fd hfd => ?_, ?_, ?_,
    fun fd hfd => ?_, ?_⟩
  · rw [hstores, or_left_comm, ← h.mem_allset]
    exact Finset.mem_insert
  · -- A descriptor that is stored is open.
    exact h.distinct.store fun hconnfd => hnew (h.mem_opened connfd hconnfd)
  · rw [hmaxi]
    by_cases hji : j = i
    · split_ifs <;> omega
    · have hj' : 0 ≤ s.client j := hpos.trans_eq (Function.update_of_ne hji _ _)
      have := h.le_maxi j hj hj'
      split_ifs <;> omega
  · rw [hmaxfd]
    rcases Finset.mem_insert.mp hfd with rfl | hfd
    · split_ifs <;> omega
    · have := h.le_maxfd fd hfd
      split_ifs <;> omega
  · rcases Finset.mem_insert.mp hfd with rfl | hfd
    · exact hfits
    · exact h.lt_size fd hfd
  · exact Finset.mem_insert_of_mem h.listen_mem
  · rw [hstores]
    rintro (rfl | hlisten)
    · exact hnew h.listen_mem
    · exact h.listen_notStored hlisten
  · rcases (hstores fd).mp hfd with rfl | hfd
    · exact Finset.mem_insert_self ..
    · exact Finset.mem_insert_of_mem (h.mem_opened fd hfd)
  · have := h.maxi_lt
    rw [hmaxi]
    split_ifs <;> omega

/-- The tables after a client is closed. -/
theorem Tables.close {listenfd : ℕ} {s : State} (h : Tables listenfd s) {i : ℕ}
    (hi : i < fdSetSize) (hpos : 0 ≤ s.client i) : Tables listenfd (s.close i) := by
  have hfd : s.client i = ((s.client i).toNat : ℕ) := (Int.toNat_of_nonneg hpos).symm
  have hstores : ∀ fd, Stores fdSetSize (s.close i).client fd ↔
      fd ≠ (s.client i).toNat ∧ Stores fdSetSize s.client fd :=
    fun fd => h.distinct.stores_release hi hfd
  have hlisten : listenfd ≠ (s.client i).toNat := by
    intro heq
    exact h.listen_notStored ⟨i, hi, by rw [heq]; exact hfd⟩
  refine ⟨⟨fun fd => ?_, h.distinct.release, fun j hj hpos' => ?_, fun fd hfd => ?_⟩,
    fun fd hfd => ?_, ?_, ?_, fun fd hfd => ?_, h.maxi_lt⟩
  · rw [hstores]
    refine Finset.mem_erase.trans ?_
    rw [h.mem_allset]
    constructor
    · rintro ⟨hne, heq | hfd⟩
      · exact Or.inl heq
      · exact Or.inr ⟨hne, hfd⟩
    · rintro (rfl | ⟨hne, hfd⟩)
      · exact ⟨hlisten, Or.inl rfl⟩
      · exact ⟨hne, Or.inr hfd⟩
  · exact h.le_maxi j hj (of_release_nonneg hpos').2
  · exact h.le_maxfd fd (Finset.mem_of_mem_erase hfd)
  · exact h.lt_size fd (Finset.mem_of_mem_erase hfd)
  · exact Finset.mem_erase_of_ne_of_mem hlisten h.listen_mem
  · rw [hstores]
    exact fun hstored => h.listen_notStored hstored.2
  · obtain ⟨hne, hfd⟩ := (hstores fd).mp hfd
    exact Finset.mem_erase_of_ne_of_mem hne (h.mem_opened fd hfd)

/-- There is a free slot: the descriptors stored are different numbers below `FD_SETSIZE`, and none
of them is `listenfd`. -/
theorem Tables.exists_free {listenfd : ℕ} {s : State} (h : Tables listenfd s) :
    ∃ i, s.free = some i := by
  cases hfree : s.free with
  | some i => exact ⟨i, rfl⟩
  | none =>
    have hpos : ∀ i < fdSetSize, 0 ≤ s.client i := by
      intro i hi
      have hi := firstIn_eq_none.mp hfree i (Nat.zero_le i) hi
      exact Int.not_lt.mp (of_decide_eq_false hi)
    -- Every slot stores another of the `FD_SETSIZE - 1` descriptors that are left.
    have hmaps : ∀ i ∈ Finset.range fdSetSize,
        (s.client i).toNat ∈ (Finset.range fdSetSize).erase listenfd := by
      intro i hi
      have hi := Finset.mem_range.mp hi
      have hstored : Stores fdSetSize s.client (s.client i).toNat :=
        ⟨i, hi, (Int.toNat_of_nonneg (hpos i hi)).symm⟩
      refine Finset.mem_erase.mpr ⟨fun heq => h.listen_notStored (heq ▸ hstored), ?_⟩
      exact Finset.mem_range.mpr (h.lt_size _ ((h.mem_allset _).mpr (Or.inr hstored)))
    have hinj : Set.InjOn (fun i => (s.client i).toNat) (Finset.range fdSetSize) := by
      intro i hi j hj heq
      have hi := Finset.mem_range.mp hi
      have hj := Finset.mem_range.mp hj
      refine h.distinct i hi j hj (hpos i hi) ?_
      rw [← Int.toNat_of_nonneg (hpos i hi), ← Int.toNat_of_nonneg (hpos j hj)]
      exact congrArg Nat.cast heq
    have hlisten : listenfd ∈ Finset.range fdSetSize :=
      Finset.mem_range.mpr (h.lt_size listenfd ((h.mem_allset listenfd).mpr (Or.inl rfl)))
    have hcard := Finset.card_le_card_of_injOn _ hmaps hinj
    rw [Finset.card_erase_of_mem hlisten, Finset.card_range] at hcard
    exact absurd hcard (by decide)

/-! ## Runs -/

/-- Where the program may be: while it handles `client[i]`, a descriptor is stored there, and
`FD_SET` was given no descriptor outside of the set. -/
def PcOk (s : State) : Prop :=
  match s.pc with
  | .read i | .write i _ => i < fdSetSize ∧ 0 ≤ s.client i
  | .overset => False
  | _ => True

/-- The invariant of the loop. -/
structure Inv (listenfd : ℕ) (s : State) : Prop extends Tables listenfd s where
  pcOk : PcOk s

/-- The loop over the clients comes to a slot that stores a descriptor. -/
theorem Tables.pcOk_next {listenfd : ℕ} {s : State} (h : Tables listenfd s) (i : ℕ) :
    PcOk { s with pc := s.next i } := by
  unfold PcOk State.next
  cases hnext : firstIn s.ready i (s.maxi + 1).toNat with
  | none => trivial
  | some j =>
    obtain ⟨hready, -, hj, -⟩ := firstIn_eq_some hnext
    obtain ⟨hpos, -⟩ := of_decide_eq_true hready
    have := h.maxi_lt
    exact ⟨by omega, hpos⟩

/-- The invariant once a client has been handled. -/
theorem Tables.handled {listenfd : ℕ} {s : State} (h : Tables listenfd s) (i : ℕ) :
    Inv listenfd (s.handled i) := by
  refine ⟨h.goto _ _ _, ?_⟩
  unfold State.handled
  dsimp only
  split_ifs
  · trivial
  · exact (h.goto s.rset (s.nready - 1) s.pc).pcOk_next (i + 1)

/-- `accept` returns a descriptor that fits into an `fd_set`. -/
def Fits : Event → Prop
  | .accept connfd => connfd < fdSetSize
  | _ => True

/-- The invariant holds at the start. -/
theorem Inv.start {listenfd : ℕ} {opened : Finset ℕ} (hlisten : listenfd ∈ opened)
    (hfits : listenfd < fdSetSize) (rset : Finset ℕ) (nready : ℤ) :
    Inv listenfd (.start listenfd opened rset nready) := by
  refine ⟨.start hlisten hfits rset nready, ?_⟩
  unfold PcOk State.start
  rw [if_pos hfits]
  trivial

/-- Every step in which `accept` returns a descriptor that fits keeps the invariant. -/
theorem Inv.step {listenfd : ℕ} {s s' : State} {e : Event} (h : Inv listenfd s) (hfits : Fits e)
    (hs : step listenfd s e = some s') : Inv listenfd s' := by
  have hpc := h.pcOk
  unfold PcOk at hpc
  cases step_outcome hs with
  | select =>
    refine ⟨h.goto _ _ _, ?_⟩
    split_ifs
    · trivial
    · exact (h.goto _ _ s.pc).pcOk_next 0
  | @accept connfd i hopen hi hfree hfd =>
    have hstore := h.store hi hfree hopen hfd
    refine ⟨hstore.goto _ _ _, ?_⟩
    split_ifs
    · trivial
    · exact hstore.pcOk_next 0
  | acceptOverset hfd => exact absurd hfits (Nat.not_lt_of_le hfd)
  | acceptFull | acceptFail | readOver | writeShort => exact ⟨h.goto _ _ _, trivial⟩
  | read hread =>
    rw [hread] at hpc
    exact ⟨h.goto _ _ _, hpc⟩
  | readFail hread =>
    rw [hread] at hpc
    exact (h.close hpc.1 hpc.2).handled _
  | write => exact h.handled _

/-- A descriptor that does not fit is given to `FD_SET`: a slot is free for it. -/
theorem Inv.overset {listenfd : ℕ} {s s' : State} {e : Event} (h : Inv listenfd s)
    (hfits : ¬Fits e) (hs : Select.step listenfd s e = some s') : s'.pc = .overset := by
  cases e with
  | accept connfd =>
    obtain ⟨i, hfree⟩ := h.exists_free
    have hfd : fdSetSize ≤ connfd := Nat.le_of_not_lt hfits
    unfold Select.step at hs
    split at hs <;> try contradiction
    rename_i heq
    obtain rfl := Event.accept.inj heq
    unfold State.accept at hs
    rw [hfree] at hs
    dsimp only at hs
    rw [if_pos hfd] at hs
    split_ifs at hs
    obtain rfl := Option.some.inj hs
    rfl
  | _ => exact absurd trivial hfits

/-- In every run the invariant holds, or the last `accept` returned a descriptor that does not fit
and `FD_SET` was given it. -/
theorem inv_or_overset_of_run {listenfd : ℕ} {opened : Finset ℕ} (hlisten : listenfd ∈ opened)
    (hfits : listenfd < fdSetSize) {rset : Finset ℕ} {nready : ℤ} {es : List Event} {s : State}
    (h : Run (step listenfd) anyStep (.start listenfd opened rset nready) es s) :
    (∀ e ∈ es, Fits e) ∧ Inv listenfd s ∨ (¬∀ e ∈ es, Fits e) ∧ s.pc = .overset := by
  refine h.history (I := fun es s => (∀ e ∈ es, Fits e) ∧ Inv listenfd s ∨
    (¬∀ e ∈ es, Fits e) ∧ s.pc = .overset) ?_ fun es s e s' ih _ hs => ?_
  · exact Or.inl ⟨fun _ he => absurd he List.not_mem_nil, .start hlisten hfits rset nready⟩
  · rcases ih with ⟨hes, hinv⟩ | ⟨-, hpc⟩
    · by_cases he : Fits e
      · refine Or.inl ⟨?_, hinv.step he hs⟩
        rw [List.forall_mem_append]
        exact ⟨hes, List.forall_mem_singleton.mpr he⟩
      · refine Or.inr ⟨fun hall => he (hall e ?_), hinv.overset he hs⟩
        exact List.mem_append_right es (List.mem_singleton_self e)
    · -- The program does not go on.
      unfold step at hs
      rw [hpc] at hs
      exact absurd hs.symm (Option.some_ne_none s')

/-! ## The bookkeeping at each call of `select` -/

/-- `FD_SET` has been given no descriptor outside of the set, and the tables agree when `select` is
called. -/
def KeepsBooks (listenfd : ℕ) (s : State) : Prop :=
  s.pc ≠ .overset ∧ (s.pc = .select → Bookkeeping listenfd s)

/-- The books are kept at the end of a run exactly when `listenfd` and every descriptor that
`accept` has returned are below `FD_SETSIZE`. -/
theorem keepsBooks_iff {listenfd : ℕ} {opened : Finset ℕ} (hlisten : listenfd ∈ opened)
    {rset : Finset ℕ} {nready : ℤ} {es : List Event} {s : State}
    (h : Run (step listenfd) anyStep (.start listenfd opened rset nready) es s) :
    KeepsBooks listenfd s ↔ listenfd < fdSetSize ∧ ∀ e ∈ es, Fits e := by
  by_cases hfits : listenfd < fdSetSize
  · rcases inv_or_overset_of_run hlisten hfits h with ⟨hes, hinv⟩ | ⟨hes, hpc⟩
    · refine iff_of_true ⟨fun hpc => ?_, fun _ => hinv.toBookkeeping⟩ ⟨hfits, hes⟩
      have := hinv.pcOk
      rwa [PcOk, hpc] at this
    · exact iff_of_false (fun hbooks => hbooks.1 hpc) fun hall => hes hall.2
  · -- `FD_SET` is given `listenfd` before the loop.
    have hpc : s.pc = .overset := by
      refine h.invariant (I := fun s => s.pc = .overset) (if_neg hfits) fun t e t' ht _ hs => ?_
      unfold step at hs
      rw [ht] at hs
      exact absurd hs.symm (Option.some_ne_none t')
    exact iff_of_false (fun hbooks => hbooks.1 hpc) fun hall => hfits hall.1

/-- The first client gets descriptor 4. -/
theorem keepsBooks_first : ∃ s,
    Run (step 3) anyStep (.start 3 {3} ∅ 0) [.select 1 {3}, .accept 4] s ∧
    s.pc = .select ∧ KeepsBooks 3 s := by
  have h : Run (step 3) anyStep (.start 3 {3} ∅ 0) [.select 1 {3}, .accept 4] _ := Run.of_exec rfl
  refine ⟨_, h, rfl, (keepsBooks_iff (Finset.mem_singleton_self 3) h).mpr ⟨by decide, ?_⟩⟩
  simp [Fits, fdSetSize]

/-- A process that has the descriptors up to 1023 open gets descriptor 1024 for its first client. -/
theorem not_keepsBooks : ¬∀ (listenfd : ℕ) (opened rset : Finset ℕ) (nready : ℤ) (es : List Event)
    (s : State), listenfd < fdSetSize → listenfd ∈ opened →
      Run (step listenfd) anyStep (.start listenfd opened rset nready) es s →
      KeepsBooks listenfd s := by
  intro h
  let s : State := { State.start 3 (Finset.range 1024) {3} 1 with pc := .accept }
  have hselect : step 3 (.start 3 (Finset.range 1024) ∅ 0) (.select 1 {3}) = some s := rfl
  have hnew : 1024 ∉ s.opened := Finset.notMem_range_self
  have haccept : step 3 s (.accept 1024) = some { s with pc := .overset } := by
    show s.accept 1024 = _
    unfold State.accept
    rw [if_neg hnew]
    rfl
  have hrun : Run (step 3) anyStep (.start 3 (Finset.range 1024) ∅ 0) _ _ :=
    .snoc (.single trivial hselect) trivial haccept
  exact (h 3 _ _ _ _ _ (by decide) (Finset.mem_range.mpr (by decide)) hrun).1 rfl

end CxxPandora.Select
