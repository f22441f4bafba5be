import CxxPandora.Epoll.Server
import CxxPandora.Poll.Server
import CxxPandora.Select.Server

/-!
# The arrays of the echo servers

The three servers declare their arrays with sizes of their own: 20 entries of `events` where
`epoll_wait` may store `CONNECT_SIZE`, `MAX_LINE` bytes of `buf` where `read` may store as many, and
an `fd_set` for descriptors below `FD_SETSIZE`. `servers_inside` says that the indices into
`client` are always in range, and the others are as long as the kernel does not return as much as it
is asked for.
-/

namespace CxxPandora.EchoServers

open Lib

/-! ## The epoll server -/

/-- `epoll_wait` reports no more events than `events` holds, and `read` does not fill `buf`. -/
def EpollFits (_ : Epoll.State) : Epoll.Event → Prop
  | .wait events => events.length ≤ Epoll.eventsLength
  | .read _ bs _ => bs.length < Epoll.maxLine
  | _ => True

/-- No array has been accessed out of its bounds, and the entries of `events` that are left to
handle are in it. -/
structure EpollInside (s : Epoll.State) : Prop where
  defined : s.pc ≠ .undefined
  events_le : ∀ rest, s.pc = .loop rest → rest.length ≤ Epoll.eventsLength

/-- The program goes on with some of the entries that were left. -/
theorem EpollInside.goto {s s' : Epoll.State} {rest rest' : List (ℕ × Epoll.Interest)}
    (h : EpollInside s) (hpc : s.pc = .loop rest) (hpc' : s'.pc = .loop rest')
    (hle : rest'.length ≤ rest.length) : EpollInside s' := by
  refine ⟨?_, fun rest'' hrest'' => ?_⟩
  · rw [hpc']
    exact Epoll.Pc.noConfusion
  · obtain rfl := Epoll.Pc.loop.inj (hpc'.symm.trans hrest'')
    exact Nat.le_trans hle (h.events_le rest hpc)

/-- A step that fits stays inside the arrays. -/
theorem EpollInside.step {listenfd : ℕ} {s s' : Epoll.State} {e : Epoll.Event} (h : EpollInside s)
    (hfits : EpollFits s e) (hstep : Epoll.step listenfd s e = some s') : EpollInside s' := by
  cases Epoll.step_outcome hstep with
  | arrive hpc => exact h.goto hpc hpc (Nat.le_refl _)
  | data _ hpc _ => exact h.goto hpc hpc (Nat.le_refl _)
  | eof hpc _ => exact h.goto hpc hpc (Nat.le_refl _)
  | writable hpc _ => exact h.goto hpc hpc (Nat.le_refl _)
  | wait hpc _ _ hle =>
    refine ⟨Epoll.Pc.noConfusion, fun rest hrest => ?_⟩
    obtain rfl := Epoll.Pc.loop.inj hrest
    exact hle
  | waitOverflow _ hlt => exact absurd hfits (Nat.not_le_of_lt hlt)
  | accept _ _ hpc _ _ _ => exact h.goto hpc rfl (Nat.le_succ _)
  | acceptFail _ => exact ⟨Epoll.Pc.noConfusion, fun _ hrest => absurd hrest Epoll.Pc.noConfusion⟩
  | read _ hpc _ _ _ _ => exact h.goto hpc rfl (Nat.le_succ _)
  | readOverflow _ _ hlen => exact absurd hlen (Nat.ne_of_lt hfits)
  | readFail _ hpc _ => exact h.goto hpc rfl (Nat.le_succ _)
  | write hpc _ _ => exact h.goto hpc rfl (Nat.le_succ _)
  | writeShort hpc _ _ => exact h.goto hpc rfl (Nat.zero_le _)

/-! ## The poll server -/

/-- `read` leaves a NUL in `buf`: it does not fill it, or it reads one. -/
def ReadFits (maxLine : ℕ) (bs : List UInt8) : Prop := bs.length < maxLine ∨ 0 ∈ bs

/-- What is read so leaves a NUL. -/
theorem ReadFits.zero_mem {maxLine : ℕ} {bs : List UInt8} (h : ReadFits maxLine bs) :
    (0 : UInt8) ∈ bs ++ List.replicate (maxLine - bs.length) 0 := by
  rcases h with hlt | hmem
  · exact List.mem_append_right bs (List.mem_replicate.mpr ⟨by omega, rfl⟩)
  · exact List.mem_append_left _ hmem

/-- `read` leaves a NUL in `buf`. -/
def PollFits (_ : Poll.State) : Poll.Event → Prop
  | .read bs => ReadFits Poll.maxLine bs
  | _ => True

/-- The program handles `client[i]`. -/
def PollAt (s : Poll.State) (i : ℕ) : Prop := s.pc = .read i ∨ ∃ bs, s.pc = .write i bs

/-- `printf` has stayed inside `buf`, the entries up to `maxi` are in `client`, and the one that is
handled is one of them. -/
structure PollInside (s : Poll.State) : Prop where
  defined : s.pc ≠ .overread
  maxi_lt : s.maxi < Poll.openMax
  index_le : ∀ i, PollAt s i → i ≤ s.maxi

/-- Between two entries the program is inside the arrays. -/
theorem PollInside.between {s : Poll.State} (hmaxi : s.maxi < Poll.openMax) {pc : Poll.Pc}
    (hpc : pc = .poll ∨ pc = .accept ∨ pc = .exited) : PollInside { s with pc := pc } := by
  refine ⟨?_, hmaxi, ?_⟩
  · rcases hpc with rfl | rfl | rfl <;> exact Poll.Pc.noConfusion
  · rintro i (hread | ⟨bs, hwrite⟩)
    · rcases hpc with rfl | rfl | rfl <;> exact absurd hread Poll.Pc.noConfusion
    · rcases hpc with rfl | rfl | rfl <;> exact absurd hwrite Poll.Pc.noConfusion

/-- The loop comes to an entry up to `maxi`, or back to `poll`. -/
theorem PollInside.next {s : Poll.State} (hmaxi : s.maxi < Poll.openMax) (i : ℕ) :
    PollInside { s with pc := s.next i } := by
  unfold Poll.State.next
  cases hfirst : firstIn s.ready i (s.maxi + 1) with
  | none => exact .between hmaxi (Or.inl rfl)
  | some j =>
    obtain ⟨-, -, hj, -⟩ := firstIn_eq_some hfirst
    refine ⟨Poll.Pc.noConfusion, hmaxi, ?_⟩
    rintro k (hread | ⟨bs, hwrite⟩)
    · obtain rfl := Poll.Pc.read.inj hread
      exact Nat.le_of_lt_succ hj
    · exact absurd hwrite Poll.Pc.noConfusion

/-- After an entry has been handled. -/
theorem PollInside.handled {s : Poll.State} (hmaxi : s.maxi < Poll.openMax) (i : ℕ) :
    PollInside (s.handled i) := by
  unfold Poll.State.handled
  dsimp only
  split_ifs
  · exact .between (s := { s with nready := s.nready - 1 }) hmaxi (Or.inl rfl)
  · exact .next (s := { s with nready := s.nready - 1 }) hmaxi (i + 1)

/-- A new client's entry is in `client`, and so is `maxi` after it. -/
theorem poll_maxi_store {s : Poll.State} (hmaxi : s.maxi < Poll.openMax) {i : ℕ}
    (hfree : s.free = some i) (connfd : ℕ) : (s.store i connfd).maxi < Poll.openMax := by
  obtain ⟨-, -, hi, -⟩ := firstIn_eq_some hfree
  unfold Poll.State.store
  dsimp only
  split_ifs
  · exact hi
  · exact hmaxi

/-- A step that fits stays inside the arrays. -/
theorem PollInside.step {s s' : Poll.State} {e : Poll.Event} (h : PollInside s)
    (hfits : PollFits s e) (hstep : Poll.step s e = some s') : PollInside s' := by
  have hmaxi := h.maxi_lt
  cases Poll.step_outcome hstep with
  | @poll nready revents hpc _ =>
    split_ifs
    · exact .between (s := s.report nready revents) hmaxi (Or.inr (Or.inl rfl))
    · exact .next (s := s.report nready revents) hmaxi 1
  | @accept i connfd hpc hfree =>
    have hmaxi' := poll_maxi_store hmaxi hfree connfd
    split_ifs
    · exact .between (s := s.store i connfd) hmaxi' (Or.inl rfl)
    · exact .next (s := s.store i connfd) hmaxi' 1
  | acceptFull _ _ _ => exact .between hmaxi (Or.inr (Or.inr rfl))
  | acceptFail _ => exact .between hmaxi (Or.inr (Or.inr rfl))
  | @read i bs hpc =>
    refine ⟨Poll.Pc.noConfusion, hmaxi, ?_⟩
    rintro j (hread | ⟨bs', hwrite⟩)
    · exact absurd hread Poll.Pc.noConfusion
    · obtain ⟨rfl, -⟩ := Poll.Pc.write.inj hwrite
      exact h.index_le i (Or.inl hpc)
  | @readOver i bs hpc hlen =>
    -- `read` left a NUL, so that `printf` does not run past `buf`.
    unfold Poll.step Poll.State.read at hstep
    rw [hpc] at hstep
    dsimp only at hstep
    rw [if_pos hfits.zero_mem] at hstep
    split_ifs at hstep
    exact absurd (congrArg Poll.State.pc (Option.some.inj hstep)) Poll.Pc.noConfusion
  | @readFail i hpc => exact .handled (s := s.close i) hmaxi i
  | @write i bs hpc => exact .handled hmaxi i
  | writeShort _ _ => exact .between hmaxi (Or.inl rfl)

/-! ## The select server -/

/-- `read` leaves a NUL in `buf`. -/
def SelectFits (_ : Select.State) : Select.Event → Prop
  | .read bs => ReadFits Select.maxLine bs
  | _ => True

/-- The program handles `client[i]`. -/
def SelectAt (s : Select.State) (i : ℕ) : Prop := s.pc = .read i ∨ ∃ n, s.pc = .write i n

/-- `printf` has stayed inside `buf`, the entries up to `maxi` are in `client`, and the one that is
handled is one of them. -/
structure SelectInside (s : Select.State) : Prop where
  defined : s.pc ≠ .overread
  maxi_lt : s.maxi < Select.fdSetSize
  index_le : ∀ i, SelectAt s i → i ≤ s.maxi

/-- Between two entries the program is inside the arrays. -/
theorem SelectInside.between {s : Select.State} (hmaxi : s.maxi < Select.fdSetSize)
    {pc : Select.Pc} (hpc : pc = .select ∨ pc = .accept ∨ pc = .exited ∨ pc = .overset) :
    SelectInside { s with pc := pc } := by
  refine ⟨?_, hmaxi, ?_⟩
  · rcases hpc with rfl | rfl | rfl | rfl <;> exact Select.Pc.noConfusion
  · rintro i (hread | ⟨n, hwrite⟩)
    · rcases hpc with rfl | rfl | rfl | rfl <;> exact absurd hread Select.Pc.noConfusion
    · rcases hpc with rfl | rfl | rfl | rfl <;> exact absurd hwrite Select.Pc.noConfusion

/-- The loop comes to an entry up to `maxi`, or back to `select`. -/
theorem SelectInside.next {s : Select.State} (hmaxi : s.maxi < Select.fdSetSize) (i : ℕ) :
    SelectInside { s with pc := s.next i } := by
  unfold Select.State.next
  cases hfirst : firstIn s.ready i (s.maxi + 1).toNat with
  | none => exact .between hmaxi (Or.inl rfl)
  | some j =>
    obtain ⟨-, -, hj, -⟩ := firstIn_eq_some hfirst
    refine ⟨Select.Pc.noConfusion, hmaxi, ?_⟩
    rintro k (hread | ⟨n, hwrite⟩)
    · obtain rfl := Select.Pc.read.inj hread
      show (j : ℤ) ≤ s.maxi
      omega
    · exact absurd hwrite Select.Pc.noConfusion

/-- After an entry has been handled. -/
theorem SelectInside.handled {s : Select.State} (hmaxi : s.maxi < Select.fdSetSize) (i : ℕ) :
    SelectInside (s.handled i) := by
  unfold Select.State.handled
  dsimp only
  split_ifs
  · exact .between (s := { s with nready := s.nready - 1 }) hmaxi (Or.inl rfl)
  · exact .next (s := { s with nready := s.nready - 1 }) hmaxi (i + 1)

/-- A new client's entry is in `client`, and so is `maxi` after it. -/
theorem select_maxi_store {s : Select.State} (hmaxi : s.maxi < Select.fdSetSize) {i : ℕ}
    (hi : i < Select.fdSetSize) (connfd : ℕ) : (s.store i connfd).maxi < Select.fdSetSize := by
  unfold Select.State.store
  dsimp only
  split_ifs
  · exact Int.ofNat_lt.mpr hi
  · exact hmaxi

/-- A step that fits stays inside the arrays. -/
theorem SelectInside.step {listenfd : ℕ} {s s' : Select.State} {e : Select.Event}
    (h : SelectInside s) (hfits : SelectFits s e) (hstep : Select.step listenfd s e = some s') :
    SelectInside s' := by
  have hmaxi := h.maxi_lt
  cases Select.step_outcome hstep with
  | @select nready rset hpc =>
    split_ifs
    · exact .between (s := { s with rset := rset, nready := nready }) hmaxi (Or.inr (Or.inl rfl))
    · exact .next (s := { s with rset := rset, nready := nready }) hmaxi 0
  | @accept connfd i hopen hi hfree hfd =>
    have hmaxi' := select_maxi_store hmaxi hi connfd
    split_ifs
    · exact .between (s := s.store i connfd) hmaxi' (Or.inl rfl)
    · exact .next (s := s.store i connfd) hmaxi' 0
  | acceptOverset _ => exact .between hmaxi (Or.inr (Or.inr (Or.inr rfl)))
  | acceptFull => exact .between hmaxi (Or.inr (Or.inr (Or.inl rfl)))
  | acceptFail => exact .between hmaxi (Or.inr (Or.inr (Or.inl rfl)))
  | @read i bs hpc =>
    refine ⟨Select.Pc.noConfusion, hmaxi, ?_⟩
    rintro j (hread | ⟨n, hwrite⟩)
    · exact absurd hread Select.Pc.noConfusion
    · obtain ⟨rfl, -⟩ := Select.Pc.write.inj hwrite
      exact h.index_le i (Or.inl hpc)
  | @readOver bs =>
    -- `read` left a NUL, so that `printf` does not run past `buf`.
    unfold Select.step at hstep
    cases hpc : s.pc with
    | read i =>
      rw [hpc] at hstep
      dsimp only at hstep
      unfold Select.State.read at hstep
      dsimp only at hstep
      rw [if_pos hfits.zero_mem] at hstep
      split_ifs at hstep
      exact absurd (congrArg Select.State.pc (Option.some.inj hstep)) Select.Pc.noConfusion
    | _ =>
      rw [hpc] at hstep
      exact absurd hstep (Option.some_ne_none _).symm
  | @readFail i hpc => exact .handled (s := s.close i) hmaxi i
  | @write i n hpc => exact .handled hmaxi i
  | writeShort => exact .between hmaxi (Or.inl rfl)

/-- The loop does not set a descriptor. -/
theorem next_ne_overset (s : Select.State) (i : ℕ) : s.next i ≠ .overset := by
  unfold Select.State.next
  cases firstIn s.ready i (s.maxi + 1).toNat with
  | none => exact Select.Pc.noConfusion
  | some j => exact Select.Pc.noConfusion

/-- Nor does what follows an entry. -/
theorem handled_ne_overset (s : Select.State) (i : ℕ) : (s.handled i).pc ≠ .overset := by
  unfold Select.State.handled
  dsimp only
  split_ifs
  · exact Select.Pc.noConfusion
  · exact next_ne_overset _ _

/-- A step that sets a descriptor outside of the set is an `accept` that returns one. -/
theorem accept_of_overset {listenfd : ℕ} {s s' : Select.State} {e : Select.Event}
    (hstep : Select.step listenfd s e = some s') (hpc : s'.pc = .overset) :
    ∃ connfd, e = .accept connfd ∧ Select.fdSetSize ≤ connfd := by
  cases Select.step_outcome hstep with
  | @select nready rset _ =>
    dsimp only at hpc
    split_ifs at hpc
    exact absurd hpc (next_ne_overset _ _)
  | @accept connfd i _ _ _ _ =>
    dsimp only at hpc
    split_ifs at hpc
    exact absurd hpc (next_ne_overset _ _)
  | acceptOverset hle => exact ⟨_, rfl, hle⟩
  | acceptFull => exact absurd hpc Select.Pc.noConfusion
  | acceptFail => exact absurd hpc Select.Pc.noConfusion
  | read _ => exact absurd hpc Select.Pc.noConfusion
  | readOver => exact absurd hpc Select.Pc.noConfusion
  | readFail _ => exact absurd hpc (handled_ne_overset _ _)
  | write _ => exact absurd hpc (handled_ne_overset _ _)
  | writeShort => exact absurd hpc Select.Pc.noConfusion

/-- With all descriptors below `FD_SETSIZE`, none is set outside of the set. -/
theorem pc_ne_overset {listenfd : ℕ} {opened rset : Finset ℕ} {nready : ℤ}
    {es : List Select.Event} {s : Select.State} (hlisten : listenfd < Select.fdSetSize)
    (h : Run (Select.step listenfd) SelectFits (.start listenfd opened rset nready) es s)
    (hfds : ∀ connfd, .accept connfd ∈ es → connfd < Select.fdSetSize) : s.pc ≠ .overset := by
  cases h with
  | nil =>
    unfold Select.State.start
    dsimp only
    rw [if_pos hlisten]
    exact Select.Pc.noConfusion
  | snoc _ _ hstep =>
    intro hpc
    obtain ⟨connfd, rfl, hle⟩ := accept_of_overset hstep hpc
    have hlt := hfds connfd (List.mem_append_right _ (List.mem_singleton_self _))
    exact absurd hle (Nat.not_le_of_lt hlt)

/-! ## The three servers -/

/-- In every run in which `epoll_wait` reports no more events than `events` holds, and `read` leaves
room for a NUL in `buf`, or in the two servers that do not store one reads one, the servers stay
inside `events`, `client` and `buf`. With all descriptors below `FD_SETSIZE`, the third stays inside
its sets as well. -/
theorem servers_inside {listenfd : ℕ} {buf : List UInt8} {n nready : ℤ}
    {mem : ℕ → Poll.Pollfd} {opened rset : Finset ℕ}
    {es : List Epoll.Event} {ps : List Poll.Event} {ss : List Select.Event}
    {e : Epoll.State} {p : Poll.State} {s : Select.State}
    (he : Run (Epoll.step listenfd) EpollFits (.start buf n) es e)
    (hp : Run Poll.step PollFits (.start listenfd mem nready) ps p)
    (hs : Run (Select.step listenfd) SelectFits (.start listenfd opened rset nready) ss s) :
    EpollInside e ∧ PollInside p ∧ SelectInside s ∧
      (listenfd < Select.fdSetSize →
        (∀ connfd, .accept connfd ∈ ss → connfd < Select.fdSetSize) → s.pc ≠ .overset) := by
  refine ⟨?_, ?_, ?_, fun hlisten hfds => pc_ne_overset hlisten hs hfds⟩
  · refine he.invariant ⟨Epoll.Pc.noConfusion, fun rest hrest => ?_⟩
      fun _ _ _ hinside hfits hstep => hinside.step hfits hstep
    obtain rfl := Epoll.Pc.loop.inj hrest
    exact Nat.zero_le _
  · refine hp.invariant ?_ fun _ _ _ hinside hfits hstep => hinside.step hfits hstep
    exact .between (s := .start listenfd mem nready) (show 0 < Poll.openMax by decide) (Or.inl rfl)
  · refine hs.invariant ?_ fun _ _ _ hinside hfits hstep => hinside.step hfits hstep
    have hstart : (Select.State.start listenfd opened rset nready).pc = .select ∨
        (Select.State.start listenfd opened rset nready).pc = .overset := by
      unfold Select.State.start
      dsimp only
      split_ifs
      · exact Or.inl rfl
      · exact Or.inr rfl
    exact .between (s := .start listenfd opened rset nready) (show (-1 : ℤ) < _ by decide)
      (hstart.imp_right fun hover => Or.inr (Or.inr hover))

/-- Whether the kernel's answers fit can be computed. -/
instance (s : Epoll.State) (e : Epoll.Event) : Decidable (EpollFits s e) :=
  match e with
  | .wait _ => inferInstanceAs (Decidable (_ ≤ _))
  | .read _ _ _ => inferInstanceAs (Decidable (_ < _))
  | .arrive | .data _ _ | .eof _ | .writable _ | .accept _ _ _ | .acceptFail | .readFail _ _
  | .write _ _ => inferInstanceAs (Decidable True)

/-- As for `poll`. -/
instance (s : Poll.State) (e : Poll.Event) : Decidable (PollFits s e) :=
  match e with
  | .read _ => inferInstanceAs (Decidable (_ ∨ _))
  | .poll _ _ | .accept _ | .acceptFail | .readFail | .write _ => inferInstanceAs (Decidable True)

/-- As for `select`. -/
instance (s : Select.State) (e : Select.Event) : Decidable (SelectFits s e) :=
  match e with
  | .read _ => inferInstanceAs (Decidable (_ ∨ _))
  | .select _ _ | .accept _ | .acceptFail | .readFail | .write _ =>
    inferInstanceAs (Decidable True)

/-- In each server one client connects, and its first byte is read. -/
theorem servers_inside_first : ∃ e p s,
    EpollInside e ∧ PollInside p ∧ SelectInside s ∧
      (3 < Select.fdSetSize →
        (∀ connfd, .accept connfd ∈ [Select.Event.select 1 {3}, .accept 4, .select 1 {4},
          .read [104]] → connfd < Select.fdSetSize) → s.pc ≠ .overset) := by
  have he : Run (Epoll.step 3) EpollFits (.start [] 0)
      [.arrive, .wait [(3, .EPOLLIN)], .accept 4 [104] false, .wait [(4, .EPOLLIN)],
        .read 4 [104] true] _ := Run.of_exec_restrict rfl
  have hp : Run Poll.step PollFits (.start (3 : ℕ) (fun _ => ⟨0, 0, 0⟩) 0)
      [.poll 1 [0x40], .accept 4, .poll 1 [0, 0x40], .read [104]] _ := Run.of_exec_restrict rfl
  have hs : Run (Select.step 3) SelectFits (.start 3 {3} ∅ 0)
      [.select 1 {3}, .accept 4, .select 1 {4}, .read [104]] _ := Run.of_exec_restrict rfl
  exact ⟨_, _, _, servers_inside he hp hs⟩

/-- A read that fills the poll server's `buf`, with no NUL in it, makes `printf` run past it. -/
theorem poll_overreads : ¬∀ (ps : List Poll.Event) (p : Poll.State),
    Run Poll.step anyStep (.start 3 (fun _ => ⟨0, 0, 0⟩) 0) ps p → PollInside p := by
  intro h
  obtain ⟨p, hrun, hpc⟩ : ∃ p, Run Poll.step anyStep (.start 3 (fun _ => ⟨0, 0, 0⟩) 0)
      [.poll 1 [0x40], .accept 4, .poll 1 [0, 0x40]] p ∧ p.pc = .read 1 :=
    ⟨_, Run.of_exec rfl, rfl⟩
  have hfull : (List.replicate Poll.maxLine (1 : UInt8)).length = Poll.maxLine :=
    List.length_replicate
  have hne : List.replicate Poll.maxLine (1 : UInt8) ≠ [] := by
    rw [← List.length_pos_iff, hfull]
    decide
  have hzero : (0 : UInt8) ∉ List.replicate Poll.maxLine (1 : UInt8) := fun hmem =>
    absurd (List.eq_of_mem_replicate hmem) (by decide)
  have hread : Poll.step p (.read (List.replicate Poll.maxLine 1)) =
      some { p with pc := .overread } := by
    unfold Poll.step Poll.State.read
    rw [hpc]
    dsimp only
    rw [if_pos ⟨hne, Nat.le_of_eq hfull⟩, hfull, Nat.sub_self, List.replicate_zero,
      List.append_nil, if_neg hzero]
  exact (h _ _ (hrun.snoc trivial hread)).defined rfl

end CxxPandora.EchoServers
