import CxxPandora.Epoll.Server
import Mathlib.Data.List.Nodup

/-!
# What the epoll server leaves unhandled

The descriptors are registered with `EPOLLET`, and an event is followed by one `accept` or one
`read`. `drained_of_run` says that nothing is left unhandled once every edge is delivered, in every
run in which no edge stands for two connections to accept and no edge is dropped; `not_drained_two`
is a run in which one edge stands for two of them.
-/

namespace CxxPandora.Epoll

open Lib

/-- An edge of descriptor `fd` is to be delivered. -/
def State.edge (s : State) (listenfd fd : ℕ) : Bool :=
  if fd = listenfd then s.listenEdge else ((s.conns fd).map Conn.edge).getD false

/-- `EPOLLET`: `epoll_wait` reports a descriptor only to deliver its edge. -/
def EdgeTriggered (listenfd : ℕ) (s : State) : Event → Prop
  | .wait events => ∀ ev ∈ events, s.edge listenfd ev.1 = true
  | _ => True

instance (listenfd : ℕ) (s : State) (e : Event) : Decidable (EdgeTriggered listenfd s e) :=
  match e with
  | .wait events => inferInstanceAs (Decidable (∀ ev ∈ events, s.edge listenfd ev.1 = true))
  | .arrive | .data .. | .eof _ | .writable _ | .accept .. | .acceptFail | .read .. | .readFail ..
  | .write .. => isTrue trivial

/-- When the loop is about to block with no edge to be delivered, there is no connection to accept,
and nothing to read on a connection that is registered for `EPOLLIN`. No array has been accessed out
of its bounds. -/
def Drained (s : State) : Prop :=
  s.pc ≠ .undefined ∧
    (s.pc = .loop [] → s.listenEdge = false →
      (∀ c conn, s.conns c = some conn → conn.edge = false) →
      s.backlog = 0 ∧
        ∀ c conn, s.conns c = some conn → conn.interest = .EPOLLIN → conn.unread = [])

/-- The condition on a step: no connection is queued while the edge of another one is to be
delivered, `write` takes what it is offered unless no entry of `events` is left, and the arrays are
long enough. -/
def DrainSafe (s : State) : Event → Prop
  | .arrive => s.listenEdge = false
  | .wait events => events.length ≤ eventsLength
  | .read _ bs _ => bs.length < maxLine
  | .write c ret => ret = s.n ∨ s.pc = .loop [(c, .EPOLLOUT)]
  | _ => True

instance (s : State) (e : Event) : Decidable (DrainSafe s e) :=
  match e with
  | .arrive => inferInstanceAs (Decidable (s.listenEdge = false))
  | .wait events => inferInstanceAs (Decidable (events.length ≤ eventsLength))
  | .read _ bs _ => inferInstanceAs (Decidable (bs.length < maxLine))
  | .write c ret => inferInstanceAs (Decidable (ret = s.n ∨ s.pc = .loop [(c, .EPOLLOUT)]))
  | .data .. | .eof _ | .writable _ | .accept .. | .acceptFail | .readFail .. => isTrue trivial

/-- The number of connections to accept that the edge of the listening socket and the entries of
`events` that are left stand for. -/
def State.due (s : State) (listenfd : ℕ) (rest : List (ℕ × Interest)) : ℕ :=
  s.listenEdge.toNat + (rest.map Prod.fst).count listenfd

/-- The invariant: there are as many connections to accept as edges and entries for them, and what
is to be read on a connection that is registered for `EPOLLIN` has an edge or an entry. -/
structure DrainInv (listenfd : ℕ) (s : State) : Prop where
  batch : Inv listenfd s
  backlog : ∀ rest, s.pc = .loop rest → s.backlog = s.due listenfd rest
  unread : ∀ rest, s.pc = .loop rest → ∀ c conn, s.conns c = some conn →
    conn.interest = .EPOLLIN → conn.unread ≠ [] → conn.edge = true ∨ (c, .EPOLLIN) ∈ rest
  defined : s.pc ≠ .undefined

/-- The invariant holds at the start. -/
theorem DrainInv.start (listenfd : ℕ) (buf : List UInt8) (n : ℤ) :
    DrainInv listenfd (.start buf n) := by
  refine ⟨Inv.start listenfd buf n, fun rest h => ?_, fun _ _ _ _ h => ?_, Pc.noConfusion⟩
  · obtain rfl := Pc.loop.inj h
    rfl
  · exact absurd h nofun

/-- A step that leaves the loop keeps the invariant, unless it goes wrong. -/
theorem DrainInv.leave {listenfd : ℕ} {s : State} (h : DrainInv listenfd s) :
    DrainInv listenfd { s with pc := .exited } :=
  ⟨h.batch.leave fun _ => nofun, fun _ hrest => absurd hrest nofun,
    fun _ hrest => absurd hrest nofun, Pc.noConfusion⟩

/-- What is to be read, after a step that changes connection `c` and leaves the entries `rest'`. -/
theorem DrainInv.unread_setConn {listenfd : ℕ} {s : State} (h : DrainInv listenfd s)
    {rest rest' : List (ℕ × Interest)} (hpc : s.pc = .loop rest) {c : ℕ} {conn' : Conn}
    (hrest : ∀ d conn, d ≠ c → s.conns d = some conn → (d, .EPOLLIN) ∈ rest → (d, .EPOLLIN) ∈ rest')
    (hc : conn'.interest = .EPOLLIN → conn'.unread ≠ [] → conn'.edge = true ∨ (c, .EPOLLIN) ∈ rest')
    (d : ℕ) (conn : Conn) (hd : (s.setConn c conn').conns d = some conn)
    (hin : conn.interest = .EPOLLIN) (hne : conn.unread ≠ []) :
    conn.edge = true ∨ (d, .EPOLLIN) ∈ rest' := by
  by_cases hdc : d = c
  · rw [hdc, State.conns_setConn_self] at hd
    obtain rfl := Option.some.inj hd
    rw [hdc]
    exact hc hin hne
  · rw [State.conns_setConn_of_ne s conn' hdc] at hd
    exact (h.unread rest hpc d conn hd hin hne).imp_right (hrest d conn hdc hd)

/-- A step keeps the invariant if it leaves as many connections to accept as edges and entries, and
something to read only with an edge or an entry. -/
theorem DrainInv.next {listenfd : ℕ} {s' : State} {rest' : List (ℕ × Interest)}
    (hbatch : Inv listenfd s') (hpc' : s'.pc = .loop rest')
    (hbacklog : s'.backlog = s'.due listenfd rest')
    (hunread : ∀ c conn, s'.conns c = some conn → conn.interest = .EPOLLIN → conn.unread ≠ [] →
      conn.edge = true ∨ (c, .EPOLLIN) ∈ rest') : DrainInv listenfd s' := by
  refine ⟨hbatch, fun rest h => ?_, fun rest h => ?_, fun h => ?_⟩
  · obtain rfl := Pc.loop.inj (hpc'.symm.trans h)
    exact hbacklog
  · obtain rfl := Pc.loop.inj (hpc'.symm.trans h)
    exact hunread
  · rw [hpc'] at h
    exact Pc.noConfusion h

/-- An entry for a connection leaves the connections to accept as they are. -/
theorem State.due_cons_of_ne (s : State) {listenfd c : ℕ} {i : Interest}
    {rest : List (ℕ × Interest)} (hc : c ≠ listenfd) :
    s.due listenfd ((c, i) :: rest) = s.due listenfd rest := by
  unfold State.due
  rw [List.map_cons, List.count_cons_of_ne hc]

/-- The delivery of the reported edges leaves the connections to accept as they are. -/
theorem due_wait {listenfd : ℕ} {s : State} {events : List (ℕ × Interest)}
    (hnodup : (events.map Prod.fst).Nodup) (hedge : EdgeTriggered listenfd s (.wait events)) :
    (s.listenEdge && !decide (listenfd ∈ events.map Prod.fst)).toNat +
      (events.map Prod.fst).count listenfd = s.due listenfd [] := by
  unfold State.due
  by_cases hmem : listenfd ∈ events.map Prod.fst
  · obtain ⟨ev, hev, hfd⟩ := List.mem_map.mp hmem
    have hpending := hedge ev hev
    rw [State.edge, if_pos hfd] at hpending
    rw [List.count_eq_one_of_mem hnodup hmem, decide_eq_true hmem, hpending]
    rfl
  · rw [List.count_eq_zero_of_not_mem hmem, decide_eq_false hmem, Bool.not_false, Bool.and_true]
    rfl

/-- What is to be read, after `epoll_wait`: the edge that was to be delivered is an entry now. -/
theorem DrainInv.unread_wait {listenfd : ℕ} {s : State} (h : DrainInv listenfd s)
    {events : List (ℕ × Interest)} (hpc : s.pc = .loop [])
    (hreg : ∀ ev ∈ events, s.registered listenfd ev.1 = some ev.2) {c : ℕ} {conn : Conn}
    (hc : s.deliver events c = some conn) (hin : conn.interest = .EPOLLIN)
    (hne : conn.unread ≠ []) : conn.edge = true ∨ (c, .EPOLLIN) ∈ events := by
  unfold State.deliver at hc
  split_ifs at hc with hmem
  · obtain ⟨conn₀, hconn₀, rfl⟩ := Option.map_eq_some_iff.mp hc
    obtain ⟨⟨d, i⟩, hev, rfl⟩ := List.mem_map.mp hmem
    have hi := hreg _ hev
    have hd : d ≠ listenfd := by
      rintro rfl
      rw [h.batch.listen] at hconn₀
      exact absurd hconn₀.symm (Option.some_ne_none conn₀)
    rw [State.registered, if_neg hd, State.interest, hconn₀] at hi
    have hi : i = .EPOLLIN := (Option.some.inj hi).symm.trans hin
    rw [hi] at hev
    exact .inr hev
  · exact .inl ((h.unread [] hpc c conn hc hin hne).resolve_right List.not_mem_nil)

/-- Every step that meets the condition keeps the invariant. -/
theorem DrainInv.step {listenfd : ℕ} {s s' : State} {e : Event} (h : DrainInv listenfd s)
    (hE : EdgeTriggered listenfd s e) (hG : DrainSafe s e) (hs : step listenfd s e = some s') :
    DrainInv listenfd s' := by
  have hbatch := h.batch.step hs
  -- The entry that is handled is for another descriptor than those that go on to wait.
  have htail : ∀ {c i rest} d conn, d ≠ c → s.conns d = some conn →
      (d, Interest.EPOLLIN) ∈ (c, i) :: rest → (d, Interest.EPOLLIN) ∈ rest := by
    intro c i rest d conn hdc _ hmem
    obtain heq | hmem := List.mem_cons.mp hmem
    · exact absurd (Prod.mk.inj heq).1 hdc
    · exact hmem
  cases step_outcome hs with
  | @arrive rest hpc =>
    refine DrainInv.next hbatch hpc ?_ (h.unread rest hpc)
    -- The new edge stands for the new connection, since no edge was there for another one.
    have hbacklog := h.backlog rest hpc
    have hG : s.listenEdge = false := hG
    rw [State.due, hG] at hbacklog
    simp only [State.arrive, State.due, hbacklog, Bool.toNat_false, Bool.toNat_true]
    omega
  | @data rest c conn bs hpc hconn | @eof rest c conn hpc hconn =>
    -- What arrives on a connection that is registered for `EPOLLIN` comes with an edge.
    refine DrainInv.next hbatch hpc (h.backlog rest hpc)
      (h.unread_setConn hpc (fun _ _ _ _ hmem => hmem) fun hin _ => .inl ?_)
    simp_all
  | @writable rest c conn hpc hconn =>
    refine DrainInv.next hbatch hpc (h.backlog rest hpc)
      (h.unread_setConn hpc (fun _ _ _ _ hmem => hmem) fun hin hne => ?_)
    refine (h.unread rest hpc c conn hconn hin hne).imp_left fun hedge => ?_
    rw [hedge, Bool.true_or]
  | @wait events hpc hnodup hreg hlen =>
    refine DrainInv.next hbatch rfl ?_ fun c conn hc hin hne => ?_
    · exact (h.backlog [] hpc).trans (due_wait hnodup hE).symm
    · exact h.unread_wait hpc hreg hc hin hne
  | waitOverflow hpc hlen => exact absurd hG (Nat.not_le_of_lt hlen)
  | @accept i rest c bs eof hpc hbacklog hne hnone =>
    refine DrainInv.next hbatch rfl ?_ (h.unread_setConn hpc ?_ fun _ hne => .inl ?_)
    -- The entry that is handled stood for the connection that is accepted.
    · have hdue := h.backlog _ hpc
      rw [State.due, List.map_cons, List.count_cons_self] at hdue
      show s.backlog - 1 = s.listenEdge.toNat + (rest.map Prod.fst).count listenfd
      omega
    · intro d conn hdc hd hmem
      refine htail d conn ?_ hd hmem
      rintro rfl
      rw [h.batch.listen] at hd
      exact absurd hd.symm (Option.some_ne_none conn)
    · simp_all
  | acceptFail => exact h.leave
  | @read c rest conn bs writable hpc hlisten hconn hbs hlen =>
    refine DrainInv.next hbatch rfl ?_ (h.unread_setConn hpc htail fun hin => absurd hin nofun)
    exact (h.backlog _ hpc).trans (State.due_cons_of_ne s hlisten)
  | readOverflow writable hpc hlen => exact absurd hG (by simp [DrainSafe, hlen])
  | @readFail c rest ret hpc hlisten =>
    refine DrainInv.next hbatch rfl ?_ fun d conn hd hin hne => ?_
    · exact (h.backlog _ hpc).trans (State.due_cons_of_ne s hlisten)
    · have hdc : d ≠ c := by
        rintro rfl
        exact absurd ((Function.update_self ..).symm.trans hd) nofun
      have hd' : s.conns d = some conn := (Function.update_of_ne hdc _ _).symm.trans hd
      exact (h.unread _ hpc d conn hd' hin hne).imp_right (htail d conn hdc hd')
  | @write c rest conn hpc hlisten hconn =>
    -- `epoll_ctl` reports an edge when something is left to read.
    refine DrainInv.next hbatch rfl ?_ (h.unread_setConn hpc htail fun _ hne => .inl ?_)
    · exact (h.backlog _ hpc).trans (State.due_cons_of_ne s hlisten)
    · simp_all
  | @writeShort c rest ret hpc hlisten hret =>
    -- The entry was the last one, so that none is dropped.
    obtain hG | hlast := hG
    · exact absurd hG hret
    · refine DrainInv.next hbatch rfl ?_ fun d conn hd hin hne => ?_
      · exact (h.backlog _ hlast).trans (State.due_cons_of_ne s hlisten)
      · refine (h.unread _ hlast d conn hd hin hne).imp_right fun hmem => ?_
        exact absurd (Prod.mk.inj (List.mem_singleton.mp hmem)).2 nofun

/-- In every run of the edge-triggered server whose steps meet the condition, nothing is left
unhandled once every edge is delivered. -/
theorem drained_of_run {listenfd : ℕ} {buf : List UInt8} {n : ℤ} {es : List Event} {s : State}
    (h : Run (step listenfd) (fun s e => EdgeTriggered listenfd s e ∧ DrainSafe s e) (.start buf n)
      es s) : Drained s := by
  have hinv : DrainInv listenfd s :=
    h.invariant (DrainInv.start listenfd buf n) fun s e s' hs hG hstep => hs.step hG.1 hG.2 hstep
  refine ⟨hinv.defined, fun hpc hlisten hedges => ⟨?_, fun c conn hc hin => ?_⟩⟩
  · rw [hinv.backlog [] hpc, State.due, hlisten]
    rfl
  · by_contra hne
    obtain hedge | hmem := hinv.unread [] hpc c conn hc hin hne
    · rw [hedges c conn hc] at hedge
      exact Bool.noConfusion hedge
    · exact absurd hmem List.not_mem_nil

/-- A connection is queued, accepted, and read. -/
def oneRead : List Event :=
  [.arrive, .wait [(3, .EPOLLIN)], .accept 5 [97] false, .wait [(5, .EPOLLIN)], .read 5 [97] true]

/-- Nothing is left unhandled after it. -/
theorem drained_of_run_one :
    ∃ s, exec (step 3) (.start (List.replicate maxLine 0) 0) oneRead = some s ∧ Drained s := by
  have hrun : Run (step 3) (fun s e => EdgeTriggered 3 s e ∧ DrainSafe s e)
      (.start (List.replicate maxLine 0) 0) oneRead _ := .of_exec_restrict rfl
  exact ⟨_, rfl, drained_of_run hrun⟩

/-- Two connections are queued before `epoll_wait` delivers the edge of the listening socket. -/
theorem not_drained_two :
    ∃ s, Run (step 3) (EdgeTriggered 3) (.start (List.replicate maxLine 0) 0)
      [.arrive, .arrive, .wait [(3, .EPOLLIN)], .accept 5 [] false] s ∧ ¬ Drained s := by
  refine ⟨_, .of_exec_restrict rfl, fun h => ?_⟩
  have hbacklog := (h.2 rfl rfl fun c conn hc => ?_).1
  · exact absurd hbacklog (by decide)
  · -- The accepted connection has no edge, and there is no other one.
    by_cases hc5 : c = 5
    · rw [hc5] at hc
      exact (congrArg Conn.edge (Option.some.inj hc)).symm
    · simp [State.setConn, State.deliver, State.start, State.arrive, hc5] at hc

end CxxPandora.Epoll
