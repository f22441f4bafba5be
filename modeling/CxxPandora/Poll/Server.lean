import CxxPandora.Lib.Machine
import CxxPandora.Lib.Slots

/-!
# The poll echo server

The loop of `linux/socket/poll/server.cpp`. A label carries what the kernel chooses: the `revents`
and the count that `poll` returns, the descriptor that `accept` returns, the bytes that `read`
stores, and what `write` returns.

`poll` is given the entries up to `maxi`, and writes their `revents`. The loop over the clients goes
up to the `maxi` of after `accept`, and so may come to an entry whose `revents` nobody has written.
-/

namespace CxxPandora.Poll

open Lib

/-! ## The model -/

/-- `OPEN_MAX`. -/
def openMax : ℕ := 1024

/-- `MAX_LINE`. -/
def maxLine : ℕ := 2048

/-- `POLLRDNORM`. -/
def pollRdNorm : UInt16 := 0x40

/-- `POLLERR`. -/
def pollErr : UInt16 := 0x8

/-- `struct pollfd`. -/
structure Pollfd where
  fd : ℤ
  events : UInt16
  revents : UInt16
  deriving DecidableEq, Repr

/-- Where the program is. -/
inductive Pc
  /-- About to call `poll`. -/
  | poll
  /-- About to call `accept`. -/
  | accept
  /-- About to read from `client[i].fd`. -/
  | read (i : ℕ)
  /-- About to write back the bytes `bs`, read from `client[i].fd`. -/
  | write (i : ℕ) (bs : List UInt8)
  /-- `exit(1)`. -/
  | exited
  /-- `printf` went on behind the end of `buf`. -/
  | overread
  deriving DecidableEq, Repr

/-- The variables of the program. Two more tell what the last call of `poll` did: `polled` is how
many entries it was given, and `reported` are the descriptors for which it returned `POLLRDNORM` or
`POLLERR`. -/
structure State where
  client : ℕ → Pollfd
  maxi : ℕ
  nready : ℤ
  pc : Pc
  polled : ℕ
  reported : List ℤ

/-- Before the first `poll`: the entries hold what `mem` held, but for the fields that are set. -/
def State.start (listenfd : ℤ) (mem : ℕ → Pollfd) (nready : ℤ) : State where
  client i :=
    if i = 0 then { mem i with fd := listenfd, events := pollRdNorm } else { mem i with fd := -1 }
  maxi := 0
  nready := nready
  pc := .poll
  polled := 0
  reported := []

/-- What happens next. -/
inductive Event
  /-- `poll` returns `nready`, and writes `revents`. -/
  | poll (nready : ℤ) (revents : List UInt16)
  /-- `accept` returns `connfd`. -/
  | accept (connfd : ℕ)
  /-- `accept` fails. -/
  | acceptFail
  /-- `read` stores the bytes `bs`. -/
  | read (bs : List UInt8)
  /-- `read` returns zero, or fails. -/
  | readFail
  /-- `write` returns `ret`. -/
  | write (ret : ℤ)
  deriving DecidableEq, Repr

/-- `client[i].revents & (POLLRDNORM | POLLERR)`. -/
def State.flagged (s : State) (i : ℕ) : Bool :=
  (s.client i).revents &&& (pollRdNorm ||| pollErr) != 0

/-- Entry `i` has a descriptor, and is flagged. -/
def State.ready (s : State) (i : ℕ) : Bool := decide (0 ≤ (s.client i).fd) && s.flagged i

/-- The loop over `client[i..maxi]`: it comes to the next entry that is ready, or back to `poll`. -/
def State.next (s : State) (i : ℕ) : Pc :=
  match firstIn s.ready i (s.maxi + 1) with
  | some j => .read j
  | none => .poll

/-- `poll` writes the `revents` of the entries up to `maxi`. -/
def State.report (s : State) (nready : ℤ) (revents : List UInt16) : State :=
  let client := fun i =>
    if i < s.maxi + 1 then { s.client i with revents := revents.getD i 0 } else s.client i
  let s := { s with client := client, nready := nready, polled := s.maxi + 1 }
  { s with reported := ((List.range s.polled).filter s.ready).map fun i => (s.client i).fd }

/-- `poll` returns. The `revents` of an entry without a descriptor are zero. -/
def State.poll (s : State) (nready : ℤ) (revents : List UInt16) : Option State :=
  if revents.length = s.maxi + 1 ∧
      ∀ i < s.maxi + 1, (s.client i).fd < 0 → revents.getD i 0 = 0 then
    let s := s.report nready revents
    some { s with pc := if (s.client 0).revents &&& pollRdNorm ≠ 0 then .accept else s.next 1 }
  else none

/-- The first entry, from 1 on, that has no descriptor. -/
def State.free (s : State) : Option ℕ := firstIn (fun i => decide ((s.client i).fd < 0)) 1 openMax

/-- `connfd` becomes a client, in entry `i`. -/
def State.store (s : State) (i connfd : ℕ) : State :=
  { s with
    client := Function.update s.client i { s.client i with fd := connfd, events := pollRdNorm }
    maxi := if s.maxi < i then i else s.maxi
    nready := s.nready - 1 }

/-- `accept` returns a descriptor. -/
def State.accept (s : State) (connfd : ℕ) : State :=
  match s.free with
  -- `perror("too many connection.\n")`.
  | none => { s with pc := .exited }
  | some i =>
    let s := s.store i connfd
    { s with pc := if s.nready < 0 then .poll else s.next 1 }

/-- `client[i]` has been handled. -/
def State.handled (s : State) (i : ℕ) : State :=
  let s := { s with nready := s.nready - 1 }
  { s with pc := if s.nready ≤ 0 then .poll else s.next (i + 1) }

/-- `read` stores some bytes in the cleared `buf`, which is printed up to a zero. -/
def State.read (s : State) (i : ℕ) (bs : List UInt8) : Option State :=
  if bs ≠ [] ∧ bs.length ≤ maxLine then
    let buf := bs ++ List.replicate (maxLine - bs.length) 0
    some { s with pc := if (0 : UInt8) ∈ buf then .write i bs else .overread }
  else none

/-- The descriptor in `client[i]` is closed. -/
def State.close (s : State) (i : ℕ) : State :=
  { s with client := Function.update s.client i { s.client i with fd := -1 } }

/-- `write` is offered the bytes `bs`. When it does not take them all, the loop is left. -/
def State.write (s : State) (i : ℕ) (bs : List UInt8) (ret : ℤ) : Option State :=
  if -1 ≤ ret ∧ ret ≤ bs.length then
    some (if ret ≠ bs.length then { s with pc := .poll } else s.handled i)
  else none

/-- The next system call of the program, and what it does until the one after. -/
def step (s : State) (e : Event) : Option State :=
  match s.pc, e with
  | .poll, .poll nready revents => s.poll nready revents
  | .accept, .accept connfd => some (s.accept connfd)
  | .accept, .acceptFail => some { s with pc := .exited }
  | .read i, .read bs => s.read i bs
  | .read i, .readFail => some ((s.close i).handled i)
  | .write i bs, .write ret => s.write i bs ret
  | _, _ => none

/-! ## What a step does -/

/-- `read` leaves a zero in `buf`, unless it fills it. -/
theorem zero_mem_buf {bs : List UInt8} (h : bs.length < maxLine) :
    (0 : UInt8) ∈ bs ++ List.replicate (maxLine - bs.length) 0 :=
  List.mem_append_right bs (List.mem_replicate.mpr ⟨by omega, rfl⟩)

/-- The outcomes of a step. -/
inductive Outcome (s : State) : Event → State → Prop
  | poll {nready revents} : s.pc = .poll →
      (∀ i < s.maxi + 1, (s.client i).fd < 0 → revents.getD i 0 = 0) →
      Outcome s (.poll nready revents) { s.report nready revents with
        pc := if ((s.report nready revents).client 0).revents &&& pollRdNorm ≠ 0 then .accept
          else (s.report nready revents).next 1 }
  | accept {i} (connfd : ℕ) : s.pc = .accept → s.free = some i →
      Outcome s (.accept connfd) { s.store i connfd with
        pc := if (s.store i connfd).nready < 0 then .poll else (s.store i connfd).next 1 }
  | acceptFull (connfd : ℕ) : s.pc = .accept → s.free = none →
      Outcome s (.accept connfd) { s with pc := .exited }
  | acceptFail : s.pc = .accept → Outcome s .acceptFail { s with pc := .exited }
  | read {i bs} : s.pc = .read i → Outcome s (.read bs) { s with pc := .write i bs }
  | readOver {i bs} : s.pc = .read i → bs.length = maxLine →
      Outcome s (.read bs) { s with pc := .overread }
  | readFail {i} : s.pc = .read i → Outcome s .readFail ((s.close i).handled i)
  | write {i bs} : s.pc = .write i bs → Outcome s (.write bs.length) (s.handled i)
  | writeShort {i bs} {ret : ℤ} : s.pc = .write i bs → ret ≠ bs.length →
      Outcome s (.write ret) { s with pc := .poll }

/-- A step has one of the outcomes. -/
theorem step_outcome {s s' : State} {e : Event} (h : step s e = some s') : Outcome s e s' := by
  unfold step at h
  split at h
  · rename_i hpc
    unfold State.poll at h
    split at h
    · rename_i hrevents
      obtain rfl := Option.some.inj h
      exact .poll hpc hrevents.2
    · exact absurd h.symm (Option.some_ne_none s')
  · rename_i connfd hpc
    obtain rfl := Option.some.inj h
    unfold State.accept
    split
    · rename_i hfree
      exact .acceptFull connfd hpc hfree
    · rename_i i hfree
      exact .accept connfd hpc hfree
  · rename_i hpc
    obtain rfl := Option.some.inj h
    exact .acceptFail hpc
  · rename_i hpc
    unfold State.read at h
    split at h
    · rename_i bs hbs
      obtain rfl := Option.some.inj h
      split
      · exact .read hpc
      · rename_i hzero
        exact .readOver hpc (Nat.le_antisymm hbs.2 (Nat.le_of_not_lt (mt zero_mem_buf hzero)))
    · exact absurd h.symm (Option.some_ne_none s')
  · rename_i hpc
    obtain rfl := Option.some.inj h
    exact .readFail hpc
  · rename_i hpc
    unfold State.write at h
    split_ifs at h with hret hn
    · obtain rfl := Option.some.inj h
      exact .writeShort hpc hn
    · obtain rfl := Option.some.inj h
      obtain rfl := not_not.mp hn
      exact .write hpc
  · exact absurd h.symm (Option.some_ne_none s')

/-! ## One round of the loop -/

/-- At the start no entry but the first has a descriptor. -/
theorem State.fd_start {listenfd : ℤ} {mem : ℕ → Pollfd} {nready : ℤ} {i : ℕ} (hi : i ≠ 0) :
    ((State.start listenfd mem nready).client i).fd = -1 := by
  unfold State.start
  dsimp only
  rw [if_neg hi]

/-- The loop comes to an entry that is ready. -/
theorem State.next_of_ready {s : State} {i : ℕ} (h : s.ready i = true) (hi : i ≤ s.maxi) :
    s.next i = .read i := by
  unfold State.next
  rw [firstIn_of_true h (Nat.lt_succ_of_le hi)]

/-- The loop ends behind the last entry. -/
theorem State.next_of_lt {s : State} {i : ℕ} (h : s.maxi < i) : s.next i = .poll := by
  unfold State.next
  rw [firstIn_of_le h]

/-- What the loop does at the last entry. -/
theorem State.next_maxi (s : State) : s.next s.maxi = .poll ∨ s.next s.maxi = .read s.maxi := by
  unfold State.next
  cases hnext : firstIn s.ready s.maxi (s.maxi + 1) with
  | none => exact Or.inl rfl
  | some i =>
    obtain ⟨-, hlo, hhi, -⟩ := firstIn_eq_some hnext
    obtain rfl : i = s.maxi := by omega
    exact Or.inr rfl

/-- The descriptors after `poll`. -/
theorem State.fd_report (s : State) (nready : ℤ) (revents : List UInt16) (i : ℕ) :
    ((s.report nready revents).client i).fd = (s.client i).fd := by
  unfold State.report
  dsimp only
  split_ifs <;> rfl

/-- What the entries are registered for, after `poll`. -/
theorem State.events_report (s : State) (nready : ℤ) (revents : List UInt16) (i : ℕ) :
    ((s.report nready revents).client i).events = (s.client i).events := by
  unfold State.report
  dsimp only
  split_ifs <;> rfl

/-- The entries that `poll` was given, after it. -/
theorem State.revents_report (s : State) (nready : ℤ) (revents : List UInt16) {i : ℕ}
    (hi : i < s.maxi + 1) :
    ((s.report nready revents).client i).revents = revents.getD i 0 := by
  unfold State.report
  dsimp only
  rw [if_pos hi]

/-- The entry that takes a new client. -/
theorem State.client_store_self (s : State) (i connfd : ℕ) :
    (s.store i connfd).client i = { s.client i with fd := connfd, events := pollRdNorm } :=
  Function.update_self ..

/-- The entries other than the one that takes a new client. -/
theorem State.client_store_of_ne (s : State) {i j : ℕ} (connfd : ℕ) (h : j ≠ i) :
    (s.store i connfd).client j = s.client j := Function.update_of_ne h _ _

/-- An entry without events is not flagged. -/
theorem State.flagged_eq_false {s : State} {i : ℕ} (h : (s.client i).revents = 0) :
    s.flagged i = false := by
  unfold State.flagged
  rw [h]
  rfl

/-- A new client is flagged if its entry was. -/
theorem State.flagged_store (s : State) (i connfd j : ℕ) :
    (s.store i connfd).flagged j = s.flagged j := by
  unfold State.flagged State.store
  dsimp only
  by_cases h : j = i
  · rw [h, Function.update_self]
  · rw [Function.update_of_ne h]

/-- The entries other than the one that is closed. -/
theorem State.client_close_of_ne (s : State) {i j : ℕ} (h : j ≠ i) :
    (s.close i).client j = s.client j := Function.update_of_ne h _ _

/-- The entry that is closed has no descriptor. -/
theorem State.fd_close_self (s : State) (i : ℕ) : ((s.close i).client i).fd = -1 := by
  unfold State.close
  dsimp only
  rw [Function.update_self]

/-- A closed entry is flagged as before. -/
theorem State.flagged_close (s : State) (i j : ℕ) : (s.close i).flagged j = s.flagged j := by
  unfold State.flagged State.close
  dsimp only
  by_cases h : j = i
  · rw [h, Function.update_self]
  · rw [Function.update_of_ne h]

/-- Whether an entry is ready depends on the entry alone. -/
theorem State.ready_congr {s s' : State} {i : ℕ} (h : s'.client i = s.client i) :
    s'.ready i = s.ready i := by
  unfold State.ready State.flagged
  rw [h]

/-- What holds throughout a round. There is no descriptor behind `maxi`; at most one entry up to
`maxi` was not given to the last `poll`, and it holds a new client; and an entry that was, and that
is ready, holds a descriptor that was reported. -/
structure Round (s : State) : Prop where
  free_above : ∀ i, s.maxi < i → (s.client i).fd < 0
  polled_le : s.polled ≤ s.maxi + 1
  maxi_le : s.maxi ≤ s.polled
  new_client : 1 ≤ s.polled → s.polled ≤ s.maxi → 0 ≤ (s.client s.maxi).fd
  mem_reported : ∀ i < s.polled, s.ready i = true → (s.client i).fd ∈ s.reported

/-- At `accept`, `poll` has just returned; and the entry that is handled was given to it. -/
def PcOk (s : State) : Prop :=
  match s.pc with
  | .accept => s.polled = s.maxi + 1 ∧ ∀ i < s.polled, (s.client i).fd < 0 → s.flagged i = false
  | .read i => 1 ≤ i ∧ i < s.polled ∧ s.ready i = true
  | .write i _ => 1 ≤ i ∧ i < s.polled
  | _ => True

/-- If entry `j` was not given to the last `poll` and happens to be flagged, then an entry from `i`
on that was given to it is ready. -/
def Shielded (s : State) (i j : ℕ) : Prop :=
  s.polled ≤ j → s.flagged j = true → ∃ k, i ≤ k ∧ k < s.polled ∧ s.ready k = true

/-- The loop does not come to an entry that was not given to the last `poll` and happens to be
flagged. When `accept` returns, such an entry may be the one that the new client takes; and when
client `i` has been handled, it may be the last one. The loop ends before it if `nready` runs out,
or if a `write` is short; and else an entry that was given to `poll` comes first. -/
def Heeds (s : State) : Event → Prop
  | .accept _ => 1 ≤ s.nready → ∀ i, s.free = some i → Shielded s 1 i
  | .readFail => 2 ≤ s.nready → ∀ i, s.pc = .read i → Shielded s (i + 1) s.maxi
  | .write ret => 2 ≤ s.nready → ∀ i bs, s.pc = .write i bs → ret = bs.length →
      Shielded s (i + 1) s.maxi
  | _ => True

/-- The loop comes to an entry that was given to `poll`. -/
theorem Round.pcOk_next {s : State} (h : Round s) {i : ℕ} (hpos : 1 ≤ i)
    (hi : Shielded s i s.maxi) : PcOk { s with pc := s.next i } := by
  unfold PcOk State.next
  cases hnext : firstIn s.ready i (s.maxi + 1) with
  | none => trivial
  | some j =>
    obtain ⟨hready, hij, hj, hmin⟩ := firstIn_eq_some hnext
    refine ⟨hpos.trans hij, Nat.lt_of_not_le fun (hpolled : s.polled ≤ j) => ?_, hready⟩
    -- The one entry that `poll` was not given is the last one.
    have hmaxi := h.maxi_le
    have hlast : j = s.maxi := by omega
    have hflagged : s.flagged s.maxi = true := by
      rw [← hlast]
      exact (Bool.and_eq_true_iff.mp hready).2
    obtain ⟨k, hik, hk, hkready⟩ := hi (hlast ▸ hpolled) hflagged
    have hkj := hmin k hik (by omega)
    exact absurd (hkready.symm.trans hkj) (by decide)

/-- The loop comes to the entry that `poll` was not given, if nothing shields it. -/
theorem Round.next_of_not_shielded {s : State} (h : Round s) {i : ℕ} (hpos : 1 ≤ i)
    (hle : i ≤ s.polled) (hi : ¬Shielded s i s.maxi) :
    s.next i = .read s.maxi ∧ s.polled ≤ s.maxi := by
  unfold Shielded at hi
  push Not at hi
  obtain ⟨hpolled, hflagged, hnone⟩ := hi
  have hready : s.ready s.maxi = true :=
    Bool.and_eq_true_iff.mpr ⟨decide_eq_true (h.new_client (hpos.trans hle) hpolled), hflagged⟩
  refine ⟨?_, hpolled⟩
  unfold State.next
  cases hnext : firstIn s.ready i (s.maxi + 1) with
  | none =>
    have hlast := firstIn_eq_none.mp hnext s.maxi (hle.trans hpolled) (Nat.lt_succ_self _)
    exact absurd (hready.symm.trans hlast) (by decide)
  | some j =>
    obtain ⟨hj, hij, hjmaxi, -⟩ := firstIn_eq_some hnext
    have hmaxi := h.maxi_le
    obtain rfl : j = s.maxi := by
      by_contra hne
      exact hnone j hij (by omega) hj
    rfl

/-- The round after `poll`. -/
theorem Round.report {s : State} (h : Round s) (nready : ℤ) (revents : List UInt16) :
    Round (s.report nready revents) where
  free_above i hi := by
    rw [State.fd_report]
    exact h.free_above i hi
  polled_le := le_rfl
  maxi_le := Nat.le_succ s.maxi
  new_client _ hle := absurd hle (Nat.not_succ_le_self s.maxi)
  mem_reported i hi hready :=
    List.mem_map.mpr ⟨i, List.mem_filter.mpr ⟨List.mem_range.mpr hi, hready⟩, rfl⟩

/-- The round after `accept`, when `poll` has just returned. -/
theorem Round.store {s : State} (h : Round s) (hpolled : s.polled = s.maxi + 1)
    (hzero : ∀ i < s.polled, (s.client i).fd < 0 → s.flagged i = false) {i : ℕ}
    (hfree : s.free = some i) (connfd : ℕ) : Round (s.store i connfd) := by
  obtain ⟨hneg, hpos, -, hmin⟩ := firstIn_eq_some hfree
  -- The entries up to `maxi` are in use, or one of them is taken.
  have hi : i ≤ s.maxi + 1 := by
    by_contra hlt
    have hused := hmin (s.maxi + 1) (by omega) (by omega)
    exact absurd (h.free_above (s.maxi + 1) (by omega)) (of_decide_eq_false hused)
  have hmaxi : (s.store i connfd).maxi = if s.maxi < i then i else s.maxi := rfl
  refine ⟨fun j hj => ?_, ?_, ?_, fun _ hle => ?_, fun j hj hready => ?_⟩
  · have hji : j ≠ i ∧ s.maxi < j := by
      rw [hmaxi] at hj
      split_ifs at hj <;> omega
    rw [State.client_store_of_ne s connfd hji.1]
    exact h.free_above j hji.2
  · show s.polled ≤ _
    rw [hmaxi, hpolled]
    split_ifs <;> omega
  · show _ ≤ s.polled
    rw [hmaxi, hpolled]
    split_ifs <;> omega
  · have hlast : (s.store i connfd).maxi = i := by
      have hle : s.polled ≤ (s.store i connfd).maxi := hle
      rw [hmaxi] at hle ⊢
      split_ifs at hle ⊢ <;> omega
    rw [hlast, State.client_store_self]
    exact Int.natCast_nonneg connfd
  · have hji : j ≠ i := by
      -- The new client's entry is not flagged if `poll` was given it.
      rintro rfl
      have hflagged := (Bool.and_eq_true_iff.mp hready).2
      rw [State.flagged_store, hzero j hj (of_decide_eq_true hneg)] at hflagged
      exact absurd hflagged (by decide)
    have hclient := State.client_store_of_ne s connfd hji
    rw [State.ready_congr hclient] at hready
    rw [hclient]
    exact h.mem_reported j hj hready

/-- The round after a client is closed. -/
theorem Round.close {s : State} (h : Round s) {i : ℕ} (hi : i < s.polled) : Round (s.close i) := by
  refine ⟨fun j hj => ?_, h.polled_le, h.maxi_le, fun hpos hle => ?_, fun j hj hready => ?_⟩
  · by_cases hji : j = i
    · rw [hji, State.fd_close_self]
      decide
    · rw [State.client_close_of_ne s hji]
      exact h.free_above j hj
  · rw [State.client_close_of_ne s (Nat.ne_of_gt (hi.trans_le hle))]
    exact h.new_client hpos hle
  · have hji : j ≠ i := by
      rintro rfl
      have hfd := of_decide_eq_true (Bool.and_eq_true_iff.mp hready).1
      rw [State.fd_close_self] at hfd
      exact absurd hfd (by decide)
    have hclient := State.client_close_of_ne s hji
    rw [State.ready_congr hclient] at hready
    rw [hclient]
    exact h.mem_reported j hj hready

/-! ## Runs -/

/-- The invariant of the loop. -/
structure Inv (s : State) : Prop extends Round s where
  pcOk : PcOk s

/-- The invariant holds at the start, whatever the entries hold. -/
theorem Inv.start (listenfd : ℤ) (mem : ℕ → Pollfd) (nready : ℤ) :
    Inv (.start listenfd mem nready) := by
  refine ⟨⟨fun i hi => ?_, Nat.zero_le _, le_rfl, fun h => ?_, fun i hi => ?_⟩, trivial⟩
  · rw [State.fd_start (Nat.ne_of_gt hi)]
    decide
  · exact absurd h (Nat.not_succ_le_zero 0)
  · exact absurd hi (Nat.not_lt_zero i)

/-- The round does not depend on where the program is, nor on `nready`. -/
theorem Round.goto {s : State} (h : Round s) (nready : ℤ) (pc : Pc) :
    Round { s with nready := nready, pc := pc } :=
  ⟨h.free_above, h.polled_le, h.maxi_le, h.new_client, h.mem_reported⟩

/-- The invariant once a client has been handled. -/
theorem Round.handled {s : State} (h : Round s) {i : ℕ}
    (hi : 2 ≤ s.nready → Shielded s (i + 1) s.maxi) : Inv (s.handled i) := by
  refine ⟨h.goto _ _, ?_⟩
  unfold State.handled
  dsimp only
  split_ifs with hnready
  · trivial
  · exact (h.goto (s.nready - 1) s.pc).pcOk_next (Nat.succ_pos i) (hi (by omega))

/-- The last entry is shielded after `accept` if the one that it stores into was so before, and only
then. -/
theorem shielded_store {s : State} {i : ℕ} (hpolled : s.polled = s.maxi + 1) (connfd : ℕ) :
    Shielded (s.store i connfd) 1 (s.store i connfd).maxi ↔ Shielded s 1 i := by
  have hmaxi : (s.store i connfd).maxi = if s.maxi < i then i else s.maxi := rfl
  have hsame : s.polled ≤ (s.store i connfd).maxi ↔ s.polled ≤ i := by
    rw [hmaxi]
    split_ifs <;> omega
  have hready : ∀ k < s.polled, s.polled ≤ i → (s.store i connfd).ready k = s.ready k :=
    fun k hk hle => State.ready_congr (s.client_store_of_ne connfd (by omega))
  constructor
  · intro h hle hflagged
    have hlast : (s.store i connfd).maxi = i := by
      rw [hmaxi]
      split_ifs <;> omega
    rw [hlast] at h
    obtain ⟨k, hk, hkpolled, hkready⟩ := h hle (by rwa [State.flagged_store])
    exact ⟨k, hk, hkpolled, by rwa [← hready k hkpolled hle]⟩
  · intro h hle hflagged
    have hle : s.polled ≤ i := hsame.mp hle
    have hlast : (s.store i connfd).maxi = i := by
      rw [hmaxi]
      split_ifs <;> omega
    rw [hlast, State.flagged_store] at hflagged
    obtain ⟨k, hk, hkpolled, hkready⟩ := h hle hflagged
    exact ⟨k, hk, hkpolled, by rwa [hready k hkpolled hle]⟩

/-- An entry is shielded after an earlier one is closed if it was so before, and only then. -/
theorem shielded_close {s : State} {i j : ℕ} :
    Shielded (s.close i) (i + 1) j ↔ Shielded s (i + 1) j := by
  have hready : ∀ k, i + 1 ≤ k → (s.close i).ready k = s.ready k :=
    fun k hk => State.ready_congr (s.client_close_of_ne (by omega))
  unfold Shielded
  rw [State.flagged_close]
  refine imp_congr_right fun _ => imp_congr_right fun _ => exists_congr fun k => ?_
  exact and_congr_right fun hk => by rw [hready k hk]; rfl

/-- Every step that heeds the entries that `poll` was not given keeps the invariant. -/
theorem Inv.step {s s' : State} {e : Event} (h : Inv s) (hheeds : Heeds s e)
    (hs : step s e = some s') : Inv s' := by
  have hpc := h.pcOk
  unfold PcOk at hpc
  cases step_outcome hs with
  | @poll nready revents hpoll hrevents =>
    have hreport := h.report nready revents
    refine ⟨hreport.goto _ _, ?_⟩
    split_ifs
    · -- The entries without a descriptor are not flagged.
      refine ⟨rfl, fun i hi hneg => ?_⟩
      rw [State.fd_report] at hneg
      refine State.flagged_eq_false ?_
      exact (State.revents_report s nready revents hi).trans (hrevents i hi hneg)
    · -- Every entry was given to `poll`.
      exact hreport.pcOk_next le_rfl fun hle => absurd hle (Nat.not_succ_le_self s.maxi)
  | @accept i connfd haccept hfree =>
    rw [haccept] at hpc
    obtain ⟨hpolled, hzero⟩ := hpc
    have hstore := h.toRound.store hpolled hzero hfree connfd
    refine ⟨hstore.goto _ _, ?_⟩
    split_ifs with hnready
    · trivial
    · have hpos : 1 ≤ s.nready := by
        have : ¬s.nready - 1 < 0 := hnready
        omega
      exact hstore.pcOk_next le_rfl ((shielded_store hpolled connfd).mpr (hheeds hpos i hfree))
  | acceptFull | acceptFail | readOver | writeShort => exact ⟨h.goto _ _, trivial⟩
  | read hread =>
    rw [hread] at hpc
    exact ⟨h.goto _ _, hpc.1, hpc.2.1⟩
  | @readFail i hread =>
    rw [hread] at hpc
    exact (h.close hpc.2.1).handled fun hnready => shielded_close.mpr (hheeds hnready i hread)
  | @write i bs hwrite => exact h.handled fun hnready => hheeds hnready i bs hwrite rfl

/-- Without a shield, the loop comes to the last entry once a client has been handled. -/
theorem Round.handled_of_not_shielded {s : State} (h : Round s) {i : ℕ} (hi : i < s.polled)
    (hnready : 2 ≤ s.nready) (hnot : ¬Shielded s (i + 1) s.maxi) :
    (s.handled i).pc = .read s.maxi ∧ s.polled ≤ s.maxi := by
  obtain ⟨hnext, hle⟩ :=
    (h.goto (s.nready - 1) s.pc).next_of_not_shielded (Nat.succ_pos i) hi hnot
  refine ⟨?_, hle⟩
  unfold State.handled
  dsimp only
  rw [if_neg (by omega)]
  exact hnext

/-- A step heeds the entries that `poll` was not given exactly when it does not take the loop to one
of them. -/
theorem Inv.heeds_iff {s s' : State} {e : Event} (h : Inv s) (hs : Poll.step s e = some s') :
    Heeds s e ↔ ∀ i, s'.pc = .read i → i < s'.polled := by
  constructor
  · intro hheeds i hread
    have hok := (h.step hheeds hs).pcOk
    rw [PcOk, hread] at hok
    exact hok.2.1
  · intro hall
    have hpc := h.pcOk
    unfold PcOk at hpc
    cases step_outcome hs with
    | poll | acceptFail | read | readOver => trivial
    | acceptFull _ _ hnone =>
      intro _ i hfree
      exact absurd (hnone.symm.trans hfree).symm (Option.some_ne_none i)
    | @accept i connfd haccept hfree =>
      rw [haccept] at hpc
      obtain ⟨hpolled, hzero⟩ := hpc
      intro hpos j hj
      obtain rfl := Option.some.inj (hfree.symm.trans hj)
      by_contra hnot
      have hstore := h.toRound.store hpolled hzero hfree connfd
      have hone : 1 ≤ s.polled := hpolled ▸ Nat.succ_pos s.maxi
      obtain ⟨hnext, hle⟩ :=
        hstore.next_of_not_shielded le_rfl hone ((shielded_store hpolled connfd).not.mpr hnot)
      have hnready : ¬(s.store i connfd).nready < 0 := show ¬s.nready - 1 < 0 by omega
      exact absurd (hall _ ((if_neg hnready).trans hnext)) (Nat.not_lt_of_le hle)
    | @readFail i hread =>
      rw [hread] at hpc
      intro hnready j hj
      obtain rfl := Pc.read.inj (hread.symm.trans hj)
      by_contra hnot
      obtain ⟨hnext, hle⟩ := (h.close hpc.2.1).handled_of_not_shielded hpc.2.1 hnready
        (shielded_close.not.mpr hnot)
      exact absurd (hall _ hnext) (Nat.not_lt_of_le hle)
    | @write i bs hwrite =>
      rw [hwrite] at hpc
      intro hnready j bs' hj _
      obtain ⟨rfl, rfl⟩ := Pc.write.inj (hwrite.symm.trans hj)
      by_contra hnot
      obtain ⟨hnext, hle⟩ := h.handled_of_not_shielded hpc.2 hnready hnot
      exact absurd (hall _ hnext) (Nat.not_lt_of_le hle)
    | @writeShort i bs ret hwrite hne =>
      intro _ j bs' hj hret
      obtain ⟨-, rfl⟩ := Pc.write.inj (hwrite.symm.trans hj)
      exact absurd hret hne

/-! ## Only reported descriptors are read -/

/-- When the loop is about to read from a descriptor, the last `poll` has reported it with
`POLLRDNORM` or `POLLERR`. -/
def ReadsReported (s : State) : Prop := ∀ i, s.pc = .read i → (s.client i).fd ∈ s.reported

/-- In every run whose steps heed the entries that `poll` was not given, only reported descriptors
are read. -/
theorem readsReported_of_run {listenfd : ℤ} {mem : ℕ → Pollfd} {nready : ℤ} {es : List Event}
    {s : State} (h : Run step Heeds (.start listenfd mem nready) es s) : ReadsReported s := by
  intro i hpc
  have hinv : Inv s :=
    h.invariant (Inv.start listenfd mem nready) fun _ _ _ hs hG hstep => hs.step hG hstep
  have hok := hinv.pcOk
  rw [PcOk, hpc] at hok
  exact hinv.mem_reported i hok.2.1 hok.2.2

/-- The first client's entry holds no events before `poll` is given it. -/
theorem readsReported_first : ∃ s, Run step Heeds (.start 3 (fun _ => ⟨0, 0, 0⟩) 0)
    [.poll 1 [0x40], .accept 4, .poll 1 [0, 0x40]] s ∧ s.pc = .read 1 ∧ ReadsReported s := by
  have hpoll : Run step Heeds (.start 3 (fun _ => ⟨0, 0, 0⟩) 0) [.poll 1 [0x40]] _ :=
    .single trivial rfl
  have hheeds : ∀ s, s.client 1 = ⟨-1, 0, 0⟩ → s.free = some 1 → Heeds s (.accept 4) := by
    intro s hclient hfree _ i hi _ hflagged
    obtain rfl := Option.some.inj (hi.symm.trans hfree)
    rw [State.flagged_eq_false (by rw [hclient])] at hflagged
    exact absurd hflagged (by decide)
  have haccept := hpoll.snoc (hheeds _ rfl rfl) rfl
  have h : Run step Heeds (.start 3 (fun _ => ⟨0, 0, 0⟩) 0)
      [.poll 1 [0x40], .accept 4, .poll 1 [0, 0x40]] _ := haccept.snoc trivial rfl
  exact ⟨_, h, rfl, readsReported_of_run h⟩

/-- The entries hold `POLLRDNORM` from before. The first client's is read although `poll` has
reported the listening socket only. -/
theorem not_readsReported : ¬∀ (listenfd : ℤ) (mem : ℕ → Pollfd) (nready : ℤ) (es : List Event)
    (s : State), Run step anyStep (.start listenfd mem nready) es s → ReadsReported s := by
  intro h
  have hrun : Run step anyStep (.start 3 (fun _ => ⟨0, 0, 0x40⟩) 0) [.poll 1 [0x40], .accept 4] _ :=
    Run.of_exec rfl
  exact absurd (h _ _ _ _ _ hrun 1 rfl) (by decide)

end CxxPandora.Poll
