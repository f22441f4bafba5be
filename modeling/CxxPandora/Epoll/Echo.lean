import CxxPandora.Epoll.Server

/-!
# What the epoll server writes to whom

`buf` and `n` are one for all connections. `echoes_of_run` says that every `write` puts on its
connection the bytes last read from it, in every run in which nothing is read while another
connection waits for its answer and each `write` takes all that it is offered; `not_echoes_crossed`
is a run in which a connection is written what was read from another one.
-/

namespace CxxPandora.Epoll

open Lib

/-- What was last read from connection `c`, since `accept` returned it. -/
def lastRead (c : ℕ) (es : List Event) : Option (List UInt8) :=
  es.foldl (fun last e =>
    match e with
    | .read d bs _ => if d = c then some bs else last
    | .accept d _ _ => if d = c then none else last
    | _ => last) none

/-- Every `write` of the run `es` has put on its connection exactly the bytes last read from it,
`n` of them, and no array has been accessed out of its bounds. A `write` that returns `ret` has
taken the first `ret` bytes of `buf`. -/
def Echoes (listenfd : ℕ) (s₀ : State) (es : List Event) (s : State) : Prop :=
  s.pc ≠ .undefined ∧ ∀ pre c ret post t, es = pre ++ .write c ret :: post →
    exec (step listenfd) s₀ pre = some t →
    lastRead c pre = some (t.buf.take ret.toNat) ∧ ret = t.n

/-- No connection but `c` waits for its answer. -/
def State.Alone (s : State) (c : ℕ) : Prop := ∀ d, d ≠ c → s.interest d ≠ some .EPOLLOUT

/-- The condition on a step: `read` is called when no other connection waits for its answer, `write`
takes all the bytes that it is offered, and the arrays are long enough. -/
def EchoSafe (s : State) : Event → Prop
  | .read c bs _ => s.Alone c ∧ bs.length < maxLine
  | .readFail c _ => s.Alone c
  | .write _ ret => ret = s.n
  | .wait events => events.length ≤ eventsLength
  | _ => True

/-- The invariant: `buf` and `n` are the bytes last read from every connection that waits for its
answer. -/
structure EchoInv (listenfd : ℕ) (es : List Event) (s : State) : Prop where
  batch : Inv listenfd s
  pending : ∀ c, s.interest c = some .EPOLLOUT →
    ∃ bs, lastRead c es = some bs ∧ s.n = bs.length ∧ s.buf.take bs.length = bs
  defined : s.pc ≠ .undefined

/-- An event that is neither a `read` nor an `accept` of a connection is not about its last read. -/
theorem lastRead_snoc (c : ℕ) (es : List Event) (e : Event) :
    lastRead c (es ++ [e]) =
      match e with
      | .read d bs _ => if d = c then some bs else lastRead c es
      | .accept d _ _ => if d = c then none else lastRead c es
      | _ => lastRead c es := by
  unfold lastRead
  rw [List.foldl_append]
  rfl

/-- Every step that meets the condition keeps the invariant. -/
theorem EchoInv.step {listenfd : ℕ} {es : List Event} {s s' : State} {e : Event}
    (h : EchoInv listenfd es s) (hG : EchoSafe s e) (hs : step listenfd s e = some s') :
    EchoInv listenfd (es ++ [e]) s' := by
  have hbatch := h.batch.step hs
  -- A connection that waits for its answer goes on to do so while `buf` and `n` stay.
  have hkeep : ∀ {c}, lastRead c (es ++ [e]) = lastRead c es → s.interest c = some .EPOLLOUT →
      ∃ bs, lastRead c (es ++ [e]) = some bs ∧ s.n = bs.length ∧ s.buf.take bs.length = bs := by
    intro c hlast hc
    rw [hlast]
    exact h.pending c hc
  cases step_outcome hs with
  -- The kernel's events.
  | arrive => exact ⟨hbatch, fun c hc => hkeep (lastRead_snoc ..) hc, h.defined⟩
  | data bs hpc hconn | eof hpc hconn | writable hpc hconn =>
    refine ⟨hbatch, fun c hc => hkeep (lastRead_snoc ..) ?_, h.defined⟩
    rwa [State.interest_setConn_self hconn (by rfl)] at hc
  | wait =>
    exact ⟨hbatch,
      fun c hc => hkeep (lastRead_snoc ..) ((State.interest_deliver s _ c).symm.trans hc),
      Pc.noConfusion⟩
  | waitOverflow hpc hlen => exact absurd hG (Nat.not_le_of_lt hlen)
  | readOverflow writable hpc hlen => exact absurd hG.2 (by omega)
  | acceptFail => exact ⟨hbatch, fun c hc => hkeep (lastRead_snoc ..) hc, Pc.noConfusion⟩
  | @accept i rest d bs eof hpc hbacklog hne hnone =>
    refine ⟨hbatch, fun c hc => ?_, Pc.noConfusion⟩
    -- The new connection is registered for `EPOLLIN`.
    have hc' := (State.interest_setConn s d _ c).symm.trans hc
    split_ifs at hc' with hcd
    · cases hc'
    · refine hkeep ?_ hc'
      rw [lastRead_snoc]
      exact if_neg fun hdc => hcd hdc.symm
  | @read d rest conn bs writable hpc hlisten hconn hbs hlen =>
    refine ⟨hbatch, fun c hc => ?_, Pc.noConfusion⟩
    -- No other connection waits for its answer, and this one is to be answered with `bs`.
    have hc' := (State.interest_setConn s d _ c).symm.trans hc
    split_ifs at hc' with hcd
    · refine ⟨bs, ?_, rfl, List.take_left ..⟩
      rw [lastRead_snoc]
      exact if_pos hcd.symm
    · exact absurd hc' (hG.1 c hcd)
  | @readFail d rest ret hpc hlisten =>
    refine ⟨hbatch, fun c hc => ?_, Pc.noConfusion⟩
    by_cases hcd : c = d
    · rw [hcd, State.interest] at hc
      dsimp only at hc
      rw [Function.update_self] at hc
      cases hc
    · rw [State.interest] at hc
      dsimp only at hc
      rw [Function.update_of_ne hcd] at hc
      exact absurd hc (hG c hcd)
  | @write d rest conn hpc hlisten hconn =>
    refine ⟨hbatch, fun c hc => ?_, Pc.noConfusion⟩
    have hc' := (State.interest_setConn s d _ c).symm.trans hc
    split_ifs at hc' with hcd
    · cases hc'
    · exact hkeep (lastRead_snoc ..) hc'
  | writeShort hpc hlisten hshort => exact absurd hG hshort

/-- The invariant holds after every run whose steps meet the condition. -/
theorem echoInv_of_run {listenfd : ℕ} {buf : List UInt8} {n : ℤ} {es : List Event} {s : State}
    (h : Run (step listenfd) EchoSafe (.start buf n) es s) : EchoInv listenfd es s := by
  refine h.history (I := EchoInv listenfd) ⟨Inv.start listenfd buf n, ?_, Pc.noConfusion⟩ ?_
  · exact fun c hc => absurd hc nofun
  · exact fun es s e s' hI hG hstep => hI.step hG hstep

/-- What `write` is offered: it handles an entry for `EPOLLOUT`, so that its connection waits for
its answer. -/
theorem EchoInv.offered {listenfd : ℕ} {es : List Event} {s s' : State} {c : ℕ} {ret : ℤ}
    (h : EchoInv listenfd es s) (hs : Epoll.step listenfd s (.write c ret) = some s') :
    ∃ bs, lastRead c es = some bs ∧ s.n = bs.length ∧ s.buf.take bs.length = bs := by
  refine h.pending c ?_
  cases step_outcome hs with
  | write hpc hlisten hconn => exact h.batch.interest hpc hlisten List.mem_cons_self
  | writeShort hpc hlisten => exact h.batch.interest hpc hlisten List.mem_cons_self

/-- In every run whose steps meet the condition, every connection is written what was last read from
it. -/
theorem echoes_of_run {listenfd : ℕ} {buf : List UInt8} {n : ℤ} {es : List Event} {s : State}
    (h : Run (step listenfd) EchoSafe (.start buf n) es s) :
    Echoes listenfd (.start buf n) es s := by
  refine ⟨(echoInv_of_run h).defined, fun pre c ret post t hes ht => ?_⟩
  obtain ⟨t', t'', hpre, hret, hwrite⟩ := h.split hes
  obtain rfl : t' = t := Option.some.inj (hpre.exec_eq.symm.trans ht)
  obtain ⟨bs, hlast, hn, htake⟩ := (echoInv_of_run hpre).offered hwrite
  -- All `n` bytes are taken.
  have hret : ret = t'.n := hret
  refine ⟨?_, hret⟩
  rw [hret, hn, Int.toNat_natCast, htake]
  exact hlast

/-- Connection 5 is accepted, read, reported to be writable, and written. -/
def oneEcho : List Event :=
  [.arrive, .wait [(3, .EPOLLIN)], .accept 5 [97, 98] false, .wait [(5, .EPOLLIN)],
    .read 5 [97, 98] true, .wait [(5, .EPOLLOUT)], .write 5 2]

/-- One connection is written what was read from it. -/
theorem echoes_of_run_one :
    ∃ s, exec (step 3) (.start (List.replicate maxLine 0) 0) oneEcho = some s ∧
      Echoes 3 (.start (List.replicate maxLine 0) 0) oneEcho s := by
  have harrive : Run (step 3) EchoSafe (.start (List.replicate maxLine 0) 0) [.arrive] _ :=
    .snoc .nil trivial rfl
  have hwait := Run.snoc (e := Event.wait [(3, .EPOLLIN)]) harrive (show 1 ≤ 20 by decide) rfl
  have haccept := Run.snoc (e := Event.accept 5 [97, 98] false) hwait trivial rfl
  have hwait' := Run.snoc (e := Event.wait [(5, .EPOLLIN)]) haccept (show 1 ≤ 20 by decide) rfl
  have hread := Run.snoc (e := Event.read 5 [97, 98] true) hwait' ⟨fun d hd => ?_, by decide⟩ rfl
  · have hout := Run.snoc (e := Event.wait [(5, .EPOLLOUT)]) hread (show 1 ≤ 20 by decide) rfl
    have hrun := Run.snoc (e := Event.write 5 2) hout rfl rfl
    exact ⟨_, rfl, echoes_of_run hrun⟩
  · simp [State.interest, State.deliver, State.setConn, State.start, State.arrive, hd]

/-- Connections 5 and 6 are both read before the first of them is written. -/
def crossedEchoes : List Event :=
  [.arrive, .wait [(3, .EPOLLIN)], .accept 5 [97] false, .arrive, .wait [(3, .EPOLLIN)],
    .accept 6 [98] false, .wait [(5, .EPOLLIN), (6, .EPOLLIN)], .read 5 [97] true,
    .read 6 [98] true, .wait [(5, .EPOLLOUT)], .write 5 1]

/-- Connection 5 is written what was read from connection 6. -/
theorem not_echoes_crossed :
    ∃ s, exec (step 3) (.start (List.replicate maxLine 0) 0) crossedEchoes = some s ∧
      ¬ Echoes 3 (.start (List.replicate maxLine 0) 0) crossedEchoes s := by
  refine ⟨_, rfl, fun h => ?_⟩
  obtain ⟨hlast, -⟩ := h.2 crossedEchoes.dropLast 5 1 [] _ rfl rfl
  have hbytes : ([97] : List UInt8) = [98] := Option.some.inj hlast
  exact absurd hbytes (by decide)

end CxxPandora.Epoll
