import CxxPandora.Apue.Opend.Passing

/-!
# Every call gets its own answer

The two parties take turns: a request is on the way, or the server works on it, or the reply is on
the way in some number of pieces (`Serving`). An error message and the two bytes that end a reply
fit the buffer of `recv_fd` together, so that the NUL is the last byte but one wherever the pieces
are cut (`recvmsg_concat`, `scan_send_fd`). So every call comes to an answer to its own request, and
no descriptor is given away twice (`csopen_answers`).
-/

namespace CxxPandora.Apue.Opend

open Lib

variable {s s' : Sys} {r : Request} {a : Answer} {p : Passed} {e last : Errmsg} {logged : Bool}
  {uid : ℕ} {segs : List Segment} {printed rest : List UInt8}

/-! ## Pieces of a reply -/

/-- The bytes of some pieces. -/
def textOf (segs : List Segment) : List UInt8 := segs.flatMap Segment.bytes

/-- Pieces of text. -/
def Plain (segs : List Segment) : Prop := ∀ seg ∈ segs, seg.rights = none ∧ seg.bytes ≠ []

/-- No pieces. -/
@[simp] theorem textOf_nil : textOf [] = [] := rfl

/-- One piece more in front. -/
@[simp] theorem textOf_cons (seg : Segment) (segs : List Segment) :
    textOf (seg :: segs) = seg.bytes ++ textOf segs := List.flatMap_cons

/-- One piece more at the end. -/
@[simp] theorem textOf_concat (seg : Segment) (segs : List Segment) :
    textOf (segs ++ [seg]) = textOf segs ++ seg.bytes := by
  unfold textOf
  rw [List.flatMap_append, List.flatMap_singleton]

/-- Pieces that fit the buffer are received together. -/
theorem recvmsg_plain (h : Plain segs) (room : ℕ) (hle : (textOf segs).length ≤ room) :
    recvmsg room segs = (textOf segs, none, []) := by
  induction segs generalizing room with
  | nil => rw [recvmsg, textOf_nil]
  | cons seg segs ih =>
    obtain ⟨hrights, hne⟩ := h seg List.mem_cons_self
    have hpos : 0 < seg.bytes.length := List.length_pos_of_ne_nil hne
    rw [textOf_cons, List.length_append] at hle
    have hrest := ih (fun seg' hseg' => h seg' (List.mem_cons_of_mem seg hseg'))
      (room - seg.bytes.length) (by omega)
    rw [recvmsg, if_neg (by omega), if_pos (by omega), hrights]
    simp only [hrest, textOf_cons]

/-- So are the pieces of a whole reply. -/
theorem recvmsg_concat (h : Plain segs) (last : Segment) (hlast : last.bytes ≠ []) (room : ℕ)
    (hle : (textOf segs).length + last.bytes.length ≤ room) :
    recvmsg room (segs ++ [last]) = (textOf segs ++ last.bytes, last.rights, []) := by
  induction segs generalizing room with
  | nil =>
    have hpos : 0 < last.bytes.length := List.length_pos_of_ne_nil hlast
    rw [textOf_nil, List.length_nil] at hle
    rw [List.nil_append, recvmsg, if_neg (by omega), if_pos (by omega)]
    cases last.rights with
    | none => simp only [recvmsg, List.append_nil, textOf_nil, List.nil_append]
    | some f => rfl
  | cons seg segs ih =>
    obtain ⟨hrights, hne⟩ := h seg List.mem_cons_self
    have hpos : 0 < seg.bytes.length := List.length_pos_of_ne_nil hne
    rw [textOf_cons, List.length_append] at hle
    have hrest := ih (fun seg' hseg' => h seg' (List.mem_cons_of_mem seg hseg'))
      (room - seg.bytes.length) (by omega)
    rw [List.cons_append, recvmsg, if_neg (by omega), if_pos (by omega), hrights]
    simp only [hrest, textOf_cons, List.append_assoc]

/-- What `recv_fd` returns for what `send_fd` has sent. -/
def Passed.ret : Passed → Ret
  | .file f => .fd f
  | .error errcode => .error (statusByte errcode).toNat

/-- Text has no NUL in it, and there is more to come. -/
theorem scan_text {text : List UInt8} (h : 0 ∉ text) : scan text none = .more text := by
  unfold scan
  rw [List.idxOf?_eq_none_iff.mpr h]

/-- The status of an error is not zero. -/
theorem statusByte_ne_zero (errcode : ℤ) : statusByte errcode ≠ 0 := by
  unfold statusByte
  split_ifs with h
  · decide
  · exact h

/-- The end of a reply: the NUL is the last byte but one. -/
theorem scan_send_fd {text : List UInt8} (h : 0 ∉ text) (p : Passed) :
    scan (text ++ (send_fd p).bytes) (send_fd p).rights = .last text p.ret := by
  cases p with
  | file f =>
    unfold scan send_fd Passed.ret
    rw [idxOf?_append_cons h [0]]
    simp
  | error errcode =>
    have hstatus := statusByte_ne_zero errcode
    unfold scan send_fd Passed.ret
    rw [idxOf?_append_cons h [statusByte errcode]]
    simp [hstatus]

/-! ## Answers -/

/-- What is printed is a message, or nothing. -/
theorem Request.Meets.exists_errmsg (h : r.Meets last a) :
    ∃ errmsg : Errmsg, a.printed = errmsg.chars := by
  unfold Request.Meets at h
  split at h
  · rcases h with ⟨id, rfl⟩ | ⟨strerror, rfl⟩
    · exact ⟨.empty, rfl⟩
    · exact ⟨_, rfl⟩
  · rw [h]
    exact ⟨_, rfl⟩

/-- A request that is not opened is answered with the message that it leaves. -/
theorem Request.meets_of_send_err (h : r.meaning last = .send_err e logged) :
    r.Meets last ⟨e.chars, .error 1⟩ := by
  unfold Request.meaning at h
  unfold Request.Meets
  generalize tokens WHITE r.name.chars = ws at h ⊢
  match ws with
  | [w] => exact Handled.noConfusion h
  | [] =>
    obtain ⟨rfl, -⟩ := Handled.send_err.inj h
    rfl
  | w :: w' :: ws =>
    obtain ⟨rfl, -⟩ := Handled.send_err.inj h
    rfl

/-- A request that is opened has one token for a name. -/
theorem Request.tokens_of_open {pathname : List UInt8} {oflag : ℤ}
    (h : r.meaning e = .open_ pathname oflag) :
    tokens WHITE r.name.chars = [pathname] ∧ oflag = r.oflag := by
  unfold Request.meaning at h
  split at h
  · rename_i w hw
    obtain ⟨rfl, rfl⟩ := Handled.open_.inj h
    exact ⟨hw, rfl⟩
  · exact Handled.noConfusion h

/-! ## The invariant -/

/-- What is to come of the reply that is being given: what has been printed, the text that is on the
way, the text that has not been written yet, and how it ends. A descriptor in it is new. -/
structure Due (s : Sys) (r : Request) (printed : List UInt8) (segs : List Segment)
    (rest : List UInt8) (p : Passed) : Prop where
  plain : Plain segs
  meets : r.Meets s.last ⟨printed ++ (textOf segs ++ rest), p.ret⟩
  fresh : ∀ id ∈ p.ret.file?, id < s.nfiles ∧ ∀ id' ∈ s.files, id' < id

/-- The client waits for an answer, and has printed a part of it. -/
inductive Serving (s : Sys) (r : Request) : List UInt8 → Prop
  | requested (hserver : s.server = .read) (hto : s.toServer = r.bytes) (hfrom : s.toClient = [])
      (hproper : r.Proper) : Serving s r []
  | opening {pathname : List UInt8} (htokens : tokens WHITE r.name.chars = [pathname])
      (hpercent : 37 ∉ pathname) (hserver : s.server = .open_ pathname r.oflag)
      (hto : s.toServer = []) (hfrom : s.toClient = []) : Serving s r []
  | writing {printed rest : List UInt8} {logged : Bool} (hserver : s.server = .writen rest logged)
      (hrest : rest ≠ []) (hto : s.toServer = [])
      (hdue : Due s r printed s.toClient rest (.error (-1))) : Serving s r printed
  | passing {printed : List UInt8} {p : Passed} {logged : Bool}
      (hserver : s.server = .send_fd p logged) (hto : s.toServer = [])
      (hdue : Due s r printed s.toClient [] p) : Serving s r printed
  | replied {printed : List UInt8} {segs : List Segment} {p : Passed} (hserver : s.server = .read)
      (hto : s.toServer = []) (hfrom : s.toClient = segs ++ [send_fd p])
      (hdue : Due s r printed segs [] p) : Serving s r printed

/-- Nothing is on the way, and the server is done with the client. -/
structure Quiet (s : Sys) : Prop where
  server : s.server = .read
  toServer : s.toServer = []
  toClient : s.toClient = []

/-- Whose turn it is. -/
def Turn (s : Sys) : Prop :=
  match s.client with
  | .outside => Quiet s
  | .writev r => Quiet s ∧ r.Proper
  | .recv_fd r printed => Serving s r printed
  | .dumped _ => False

/-- The answers so far are right, the files in them come in the order in which they were opened,
the parties take turns, and the message that is there may be a format. -/
structure Inv (s : Sys) : Prop where
  turn : Turn s
  percent : 37 ∉ s.errmsg.chars
  meets : ∀ q ∈ s.answers, q.request.Meets q.last q.answer
  lt : ∀ id ∈ s.files, id < s.nfiles
  sorted : s.files.Pairwise (· < ·)

/-- What is due stays so when files are opened for others. -/
theorem Due.mono (h : Due s r printed segs rest p) (hlast : s'.last = s.last)
    (hfiles : s'.files = s.files) (hle : s.nfiles ≤ s'.nfiles) : Due s' r printed segs rest p :=
  ⟨h.plain, hlast ▸ h.meets, fun id hid =>
    ⟨(h.fresh id hid).1.trans_le hle, fun id' hid' => (h.fresh id hid).2 id' (hfiles ▸ hid')⟩⟩

/-- The text that is due fits the buffer with the two bytes that end it, and has no NUL. -/
theorem Due.fits (h : Due s r printed segs rest p) :
    (textOf segs).length + rest.length + 2 ≤ MAXLINE ∧ 0 ∉ textOf segs := by
  obtain ⟨errmsg, herrmsg⟩ := h.meets.exists_errmsg
  have hlen := errmsg.length_le
  have hzero := errmsg.zero_notMem
  rw [← herrmsg] at hlen hzero
  simp only [List.length_append, List.mem_append, not_or] at hlen hzero
  unfold MAXLINE at hlen ⊢
  exact ⟨by omega, hzero.2.1⟩

/-- `send_err` with the message that answers the request. -/
theorem Serving.of_send_err (hto : s.toServer = []) (hfrom : s.toClient = [])
    (hmeets : r.Meets s.last ⟨e.chars, .error 1⟩) (logged : Bool) :
    Serving (s.send_err e logged) r [] := by
  have hret : (Passed.error (-1)).ret = .error 1 := by decide
  have hplain : Plain s.toClient := by
    rw [hfrom]
    exact fun seg hseg => absurd hseg List.not_mem_nil
  have hdue : Due (s.send_err e logged) r [] s.toClient e.chars (.error (-1)) := by
    refine ⟨hplain, ?_, fun id hid => absurd hid (by rw [hret]; exact Option.not_mem_none id)⟩
    rw [hfrom, textOf_nil, List.nil_append, List.nil_append, hret]
    exact hmeets
  by_cases hempty : e.chars = []
  · rw [hempty] at hdue
    exact .passing (if_pos hempty) hto hdue
  · exact .writing (if_neg hempty) hempty hto hdue

/-- At the start. -/
theorem inv_init : Inv Sys.init :=
  ⟨⟨rfl, rfl, rfl⟩, by decide, fun _ hq => absurd hq List.not_mem_nil,
    fun _ hid => absurd hid List.not_mem_nil, .nil⟩

/-- A call returns, with nothing left on the way. -/
theorem Inv.return_ (h : Inv s) (hserver : s.server = .read) (hto : s.toServer = []) {ret : Ret}
    (hmeets : r.Meets s.last ⟨printed, ret⟩)
    (hfresh : ∀ id ∈ ret.file?, id < s.nfiles ∧ ∀ id' ∈ s.files, id' < id) :
    Inv ({ s with toClient := [] }.return_ r printed ret) := by
  have hfiles : ({ s with toClient := [] }.return_ r printed ret).files =
      s.files ++ ret.file?.toList := by
    unfold Sys.files Sys.return_
    rw [List.filterMap_append]
    cases hret : ret.file? <;> simp [hret]
  refine ⟨⟨hserver, hto, rfl⟩, h.percent, fun q hq => ?_, fun id hid => ?_, ?_⟩
  · rcases List.mem_append.mp hq with hq | hq
    · exact h.meets q hq
    · rw [List.mem_singleton.mp hq]
      exact hmeets
  · rw [hfiles, List.mem_append, Option.mem_toList] at hid
    exact hid.elim (h.lt id) fun hid => (hfresh id hid).1
  · rw [hfiles, List.pairwise_append]
    refine ⟨h.sorted, ?_, fun id' hid' id hid => ?_⟩
    · cases ret.file? with
      | none => exact .nil
      | some id => exact List.pairwise_singleton _ id
    · exact (hfresh id (Option.mem_toList.mp hid)).2 id' hid'

/-! ## The steps -/

/-- Text that has arrived is printed. -/
theorem Due.receive_text (h : Due s r printed s.toClient rest p) :
    s.receive r printed none = some { s with
      toClient := []
      client := .recv_fd r (printed ++ textOf s.toClient) } := by
  obtain ⟨hle, hzero⟩ := h.fits
  have hrecv := recvmsg_plain h.plain MAXLINE (by omega)
  simp only [Sys.receive, hrecv, scan_text hzero]

/-- When the end of the reply has arrived as well, the call returns. -/
theorem Due.receive_last (h : Due s r printed segs [] p)
    (hfrom : s.toClient = segs ++ [send_fd p]) :
    s.receive r printed none =
      some ({ s with toClient := [] }.return_ r (printed ++ textOf segs) p.ret) := by
  obtain ⟨hle, hzero⟩ := h.fits
  have htwo : (send_fd p).bytes.length = 2 := by cases p <;> rfl
  have hne : (send_fd p).bytes ≠ [] := List.ne_nil_of_length_pos (by omega)
  have hrecv := recvmsg_concat h.plain (send_fd p) hne MAXLINE (by omega)
  simp only [Sys.receive, hfrom, hrecv, scan_send_fd hzero]

/-- Text that has been printed is not due any more. -/
theorem Due.of_printed (h : Due s r printed segs rest p) :
    Due s r (printed ++ textOf segs) [] rest p := by
  refine ⟨fun seg hseg => absurd hseg List.not_mem_nil, ?_, h.fresh⟩
  rw [textOf_nil, List.nil_append, List.append_assoc]
  exact h.meets

/-- A piece of text is written. -/
theorem Due.write (h : Due s r printed segs rest p) {n : ℕ} (hpos : 0 < n) (hn : n ≤ rest.length) :
    Due s r printed (segs ++ [⟨rest.take n, none⟩]) (rest.drop n) p := by
  refine ⟨fun seg hseg => ?_, ?_, h.fresh⟩
  · rcases List.mem_append.mp hseg with hseg | hseg
    · exact h.plain seg hseg
    · rw [List.mem_singleton.mp hseg]
      refine ⟨rfl, List.ne_nil_of_length_pos ?_⟩
      rw [List.length_take]
      omega
  · rw [textOf_concat, List.append_assoc, List.take_append_drop]
    exact h.meets

/-- The client waits for an answer. -/
theorem Turn.of_serving (hclient : s.client = .recv_fd r printed) (h : Serving s r printed) :
    Turn s := by
  unfold Turn
  rw [hclient]
  exact h

/-- Between two calls. -/
theorem Turn.of_outside (h : Turn s) (hclient : s.client = .outside) : Quiet s := by
  unfold Turn at h
  rwa [hclient] at h

/-- At the start of a call. -/
theorem Turn.of_writev (h : Turn s) (hclient : s.client = .writev r) : Quiet s ∧ r.Proper := by
  unfold Turn at h
  rwa [hclient] at h

/-- In the middle of a call. -/
theorem Turn.of_recv_fd (h : Turn s) (hclient : s.client = .recv_fd r printed) :
    Serving s r printed := by
  unfold Turn at h
  rwa [hclient] at h

/-- `recv_fd` finds no error. -/
theorem Turn.not_dumped (h : Turn s) (msg : String) : s.client ≠ .dumped msg := fun hclient => by
  unfold Turn at h
  rwa [hclient] at h

/-- The client waits for an answer whenever anything is to be done about one. -/
theorem Turn.serving (h : Turn s) (hbusy : ¬Quiet s) :
    ∃ r printed, s.client = .recv_fd r printed ∧ Serving s r printed := by
  cases hclient : s.client with
  | outside => exact absurd (h.of_outside hclient) hbusy
  | writev r => exact absurd (h.of_writev hclient).1 hbusy
  | recv_fd r printed => exact ⟨r, printed, rfl, h.of_recv_fd hclient⟩
  | dumped msg => exact absurd hclient (h.not_dumped msg)

/-- A request is on the way. -/
theorem Turn.of_toServer (h : Turn s) (hne : s.toServer ≠ []) :
    ∃ r, s.client = .recv_fd r [] ∧ s.toServer = r.bytes ∧ s.toClient = [] ∧ r.Proper := by
  obtain ⟨r, printed, hclient, hserving⟩ := h.serving fun hquiet => hne hquiet.toServer
  cases hserving with
  | requested _ hto hfrom hproper => exact ⟨r, hclient, hto, hfrom, hproper⟩
  | opening _ _ _ hto _ => exact absurd hto hne
  | writing _ _ hto _ => exact absurd hto hne
  | passing _ hto _ => exact absurd hto hne
  | replied _ hto _ _ => exact absurd hto hne

/-- The server is about to open a file. -/
theorem Turn.of_open {pathname : List UInt8} {oflag : ℤ} (h : Turn s)
    (hserver : s.server = .open_ pathname oflag) :
    ∃ r, s.client = .recv_fd r [] ∧ tokens WHITE r.name.chars = [pathname] ∧ 37 ∉ pathname ∧
      oflag = r.oflag ∧ s.toServer = [] ∧ s.toClient = [] := by
  obtain ⟨r, printed, hclient, hserving⟩ := h.serving fun hquiet =>
    Server.noConfusion (hserver.symm.trans hquiet.server)
  cases hserving with
  | opening htokens hpercent hserver' hto hfrom =>
    obtain ⟨rfl, rfl⟩ := Server.open_.inj (hserver.symm.trans hserver')
    exact ⟨r, hclient, htokens, hpercent, rfl, hto, hfrom⟩
  | requested hserver' _ _ _ => exact Server.noConfusion (hserver.symm.trans hserver')
  | writing hserver' _ _ _ => exact Server.noConfusion (hserver.symm.trans hserver')
  | passing hserver' _ _ => exact Server.noConfusion (hserver.symm.trans hserver')
  | replied hserver' _ _ _ => exact Server.noConfusion (hserver.symm.trans hserver')

/-- The server is in the middle of a message. -/
theorem Turn.of_writen (h : Turn s) (hserver : s.server = .writen rest logged) :
    ∃ r printed, s.client = .recv_fd r printed ∧ s.toServer = [] ∧
      Due s r printed s.toClient rest (.error (-1)) := by
  obtain ⟨r, printed, hclient, hserving⟩ := h.serving fun hquiet =>
    Server.noConfusion (hserver.symm.trans hquiet.server)
  cases hserving with
  | writing hserver' _ hto hdue =>
    obtain ⟨rfl, -⟩ := Server.writen.inj (hserver.symm.trans hserver')
    exact ⟨r, printed, hclient, hto, hdue⟩
  | requested hserver' _ _ _ => exact Server.noConfusion (hserver.symm.trans hserver')
  | opening _ _ hserver' _ _ => exact Server.noConfusion (hserver.symm.trans hserver')
  | passing hserver' _ _ => exact Server.noConfusion (hserver.symm.trans hserver')
  | replied hserver' _ _ _ => exact Server.noConfusion (hserver.symm.trans hserver')

/-- The server is at the end of a reply. -/
theorem Turn.of_send_fd (h : Turn s) (hserver : s.server = .send_fd p logged) :
    ∃ r printed, s.client = .recv_fd r printed ∧ s.toServer = [] ∧
      Due s r printed s.toClient [] p := by
  obtain ⟨r, printed, hclient, hserving⟩ := h.serving fun hquiet =>
    Server.noConfusion (hserver.symm.trans hquiet.server)
  cases hserving with
  | passing hserver' hto hdue =>
    obtain ⟨rfl, -⟩ := Server.send_fd.inj (hserver.symm.trans hserver')
    exact ⟨r, printed, hclient, hto, hdue⟩
  | requested hserver' _ _ _ => exact Server.noConfusion (hserver.symm.trans hserver')
  | opening _ _ hserver' _ _ => exact Server.noConfusion (hserver.symm.trans hserver')
  | writing hserver' _ _ _ => exact Server.noConfusion (hserver.symm.trans hserver')
  | replied hserver' _ _ _ => exact Server.noConfusion (hserver.symm.trans hserver')

/-- A pass of the loop of `recv_fd`. -/
theorem Inv.receive (h : Inv s) (hserving : Serving s r printed) (hne : s.toClient ≠ [])
    (hstep : s.receive r printed none = some s') : Inv s' := by
  cases hserving with
  | requested _ _ hfrom _ => exact absurd hfrom hne
  | opening _ _ _ _ hfrom => exact absurd hfrom hne
  | writing hserver hrest hto hdue =>
    rw [hdue.receive_text] at hstep
    obtain rfl := Option.some.inj hstep
    have hserving' := Serving.writing (s := { s with
      toClient := [], client := .recv_fd r (printed ++ textOf s.toClient) }) hserver hrest hto
      (hdue.of_printed.mono rfl rfl le_rfl)
    exact ⟨.of_serving rfl hserving', h.percent, h.meets, h.lt, h.sorted⟩
  | passing hserver hto hdue =>
    rw [hdue.receive_text] at hstep
    obtain rfl := Option.some.inj hstep
    have hserving' := Serving.passing (s := { s with
      toClient := [], client := .recv_fd r (printed ++ textOf s.toClient) }) hserver hto
      (hdue.of_printed.mono rfl rfl le_rfl)
    exact ⟨.of_serving rfl hserving', h.percent, h.meets, h.lt, h.sorted⟩
  | replied hserver hto hfrom hdue =>
    rw [hdue.receive_last hfrom] at hstep
    obtain rfl := Option.some.inj hstep
    have hmeets := hdue.meets
    rw [List.append_nil] at hmeets
    exact h.return_ hserver hto hmeets hdue.fresh

/-- The server reads a request. -/
theorem Inv.read (h : Inv s) (hserver : s.server = .read) (hne : s.toServer ≠ [])
    (hstep : step uid s .read = some s') : Inv s' := by
  obtain ⟨r, hclient, hto, hfrom, hproper⟩ := h.turn.of_toServer hne
  have hbuf : s.toServer.take MAXLINE = r.bytes := by
    rw [hto]
    exact List.take_of_length_le hproper.fits.2.2
  have hrest : s.toServer.drop MAXLINE = [] := by
    rw [hto]
    exact List.drop_of_length_le hproper.fits.2.2
  simp only [step, hserver, hne, ne_eq, not_false_eq_true, and_self, if_true] at hstep
  rw [hbuf, hrest, handle_request_bytes] at hstep
  cases hmeaning : r.meaning s.errmsg with
  | send_err errmsg logged =>
    rw [hmeaning] at hstep
    obtain rfl := Option.some.inj hstep
    have hserving := Serving.of_send_err (s := { s with last := s.errmsg, toServer := [] }) rfl
      hfrom (Request.meets_of_send_err hmeaning) logged
    exact ⟨.of_serving hclient hserving, Request.percent_notMem h.percent hmeaning, h.meets, h.lt,
      h.sorted⟩
  | open_ pathname oflag =>
    rw [hmeaning] at hstep
    obtain ⟨htokens, rfl⟩ := Request.tokens_of_open hmeaning
    -- A name without `%` has none in its parts.
    have hpercent : 37 ∉ pathname := fun hmem =>
      hproper.percent (mem_of_mem_tokens (htokens ▸ List.mem_singleton_self pathname) hmem)
    obtain rfl := Option.some.inj hstep
    exact ⟨.of_serving hclient (.opening htokens hpercent rfl rfl hfrom), h.percent, h.meets, h.lt,
      h.sorted⟩

/-- The server opens a file, or cannot. -/
theorem Inv.open_ (h : Inv s) {strerror : Option CString}
    (hpercent : ∀ strerror' ∈ strerror, 37 ∉ strerror'.chars)
    (hstep : step uid s (.open_ strerror) = some s') : Inv s' := by
  cases hserver : s.server with
  | read => simp [step, hserver] at hstep
  | writen rest logged => simp [step, hserver] at hstep
  | send_fd p logged => simp [step, hserver] at hstep
  | undefined => simp [step, hserver] at hstep
  | open_ pathname oflag =>
    obtain ⟨r, hclient, htokens, hname, rfl, hto, hfrom⟩ := h.turn.of_open hserver
    have hmeets : ∀ a : Answer, ((∃ id, a = ⟨[], .fd ⟨id, pathname, r.oflag⟩⟩) ∨
        ∃ strerror, a = ⟨(Errmsg.cantOpen pathname strerror).chars, .error 1⟩) →
        r.Meets s.last a := by
      intro a ha
      unfold Request.Meets
      rwa [htokens]
    cases strerror with
    | some strerror =>
      simp only [step, hserver] at hstep
      obtain rfl := Option.some.inj hstep
      have hserving := Serving.of_send_err hto hfrom (hmeets _ (Or.inr ⟨strerror, rfl⟩)) true
      exact ⟨.of_serving hclient hserving,
        percent_notMem_cantOpen hname (hpercent strerror rfl), h.meets, h.lt, h.sorted⟩
    | none =>
      simp only [step, hserver] at hstep
      obtain rfl := Option.some.inj hstep
      -- The file is opened for this call: its number is greater than all before.
      have hdue : Due { s with
          nfiles := s.nfiles + 1
          server := .send_fd (.file ⟨s.nfiles, pathname, r.oflag⟩) false } r [] s.toClient []
          (.file ⟨s.nfiles, pathname, r.oflag⟩) := by
        refine ⟨?_, hmeets _ (Or.inl ⟨s.nfiles, ?_⟩), fun id hid => ?_⟩
        · rw [hfrom]
          exact fun seg hseg => absurd hseg List.not_mem_nil
        · rw [hfrom]
          rfl
        · obtain rfl := Option.some.inj hid
          exact ⟨Nat.lt_succ_self _, h.lt⟩
      exact ⟨.of_serving hclient (.passing rfl hto hdue), h.percent, h.meets,
        fun id hid => (h.lt id hid).trans (Nat.lt_succ_self _), h.sorted⟩

/-- The server writes a piece of a message. -/
theorem Inv.write (h : Inv s) {n : ℕ} (hstep : step uid s (.write n) = some s') : Inv s' := by
  cases hserver : s.server with
  | read => simp [step, hserver] at hstep
  | open_ pathname oflag => simp [step, hserver] at hstep
  | send_fd p logged => simp [step, hserver] at hstep
  | undefined => simp [step, hserver] at hstep
  | writen rest logged =>
    obtain ⟨r, printed, hclient, hto, hdue⟩ := h.turn.of_writen hserver
    simp only [step, hserver] at hstep
    split_ifs at hstep with hn hlast
    · -- The last piece.
      obtain rfl := Option.some.inj hstep
      have hdue' := hdue.write hn.1 hn.2
      rw [hlast, List.drop_length, ← hlast] at hdue'
      exact ⟨.of_serving hclient (.passing rfl hto (hdue'.mono rfl rfl le_rfl)), h.percent,
        h.meets, h.lt, h.sorted⟩
    · -- `writen` has more to write.
      obtain rfl := Option.some.inj hstep
      have hdrop : rest.drop n ≠ [] := by
        refine List.ne_nil_of_length_pos ?_
        rw [List.length_drop]
        omega
      have hdue' := hdue.write hn.1 hn.2
      exact ⟨.of_serving hclient (.writing rfl hdrop hto (hdue'.mono rfl rfl le_rfl)), h.percent,
        h.meets, h.lt, h.sorted⟩

/-- The server ends a reply. -/
theorem Inv.sendmsg (h : Inv s) (hstep : step uid s .sendmsg = some s') : Inv s' := by
  cases hserver : s.server with
  | read => simp [step, hserver] at hstep
  | undefined => simp [step, hserver] at hstep
  | open_ pathname oflag => simp [step, hserver] at hstep
  | writen rest logged => simp [step, hserver] at hstep
  | send_fd p logged =>
    obtain ⟨r, printed, hclient, hto, hdue⟩ := h.turn.of_send_fd hserver
    simp only [step, hserver] at hstep
    obtain rfl := Option.some.inj hstep
    -- `log_msg` takes `errmsg` for its format, in which there is no `%`.
    have hread : ({ s with toClient := s.toClient ++ [send_fd p] }.log_msg logged).server = .read :=
      if_neg fun hformat =>
        Bool.false_ne_true (hformat.2.symm.trans (formatOk_of_notMem h.percent))
    exact ⟨.of_serving hclient (.replied hread hto rfl (hdue.mono rfl rfl le_rfl)), h.percent,
      h.meets, h.lt, h.sorted⟩

/-- The server serves others. -/
theorem Inv.others (h : Inv s) {errmsg : Errmsg} {nfiles : ℕ} (hpercent : 37 ∉ errmsg.chars)
    (hstep : step uid s (.others errmsg nfiles) = some s') : Inv s' := by
  have hle : s.nfiles ≤ s.nfiles + nfiles := Nat.le_add_right _ _
  simp only [step] at hstep
  split_ifs at hstep with hserver
  obtain rfl := Option.some.inj hstep
  refine ⟨?_, hpercent, h.meets, fun id hid => (h.lt id hid).trans_le hle, h.sorted⟩
  unfold Turn
  cases hclient : s.client with
  | outside =>
    have hquiet := h.turn.of_outside hclient
    exact ⟨hquiet.1, hquiet.2, hquiet.3⟩
  | writev r =>
    obtain ⟨hquiet, hproper⟩ := h.turn.of_writev hclient
    exact ⟨⟨hquiet.1, hquiet.2, hquiet.3⟩, hproper⟩
  | dumped msg => exact absurd hclient (h.turn.not_dumped msg)
  | recv_fd r printed =>
    cases h.turn.of_recv_fd hclient with
    | requested _ hto hfrom hproper => exact .requested hserver hto hfrom hproper
    | opening htokens hname hserver' hto hfrom => exact .opening htokens hname hserver' hto hfrom
    | writing hserver' hrest hto hdue => exact .writing hserver' hrest hto (hdue.mono rfl rfl hle)
    | passing hserver' hto hdue => exact .passing hserver' hto (hdue.mono rfl rfl hle)
    | replied _ hto hfrom hdue => exact .replied hserver hto hfrom (hdue.mono rfl rfl hle)

/-- Each step keeps the invariant. -/
theorem Inv.step (h : Inv s) {act : Act} (hG : Uses s act) (hstep : step uid s act = some s') :
    Inv s' := by
  cases act with
  | csopen r =>
    simp only [Opend.step] at hstep
    split_ifs at hstep with hclient
    obtain rfl := Option.some.inj hstep
    have hquiet := h.turn.of_outside hclient
    exact ⟨⟨⟨hquiet.1, hquiet.2, hquiet.3⟩, hG⟩, h.percent, h.meets, h.lt, h.sorted⟩
  | writev =>
    cases hclient : s.client with
    | outside => simp [Opend.step, hclient] at hstep
    | recv_fd r printed => simp [Opend.step, hclient] at hstep
    | dumped msg => simp [Opend.step, hclient] at hstep
    | writev r =>
      simp only [Opend.step, hclient] at hstep
      obtain rfl := Option.some.inj hstep
      obtain ⟨hquiet, hproper⟩ := h.turn.of_writev hclient
      have hto : s.toServer ++ r.bytes = r.bytes := by rw [hquiet.toServer, List.nil_append]
      exact ⟨.requested hquiet.server hto hquiet.toClient hproper, h.percent, h.meets, h.lt,
        h.sorted⟩
  | recvmsg short =>
    obtain rfl : short = none := hG
    cases hclient : s.client with
    | outside => simp [Opend.step, hclient] at hstep
    | writev r => simp [Opend.step, hclient] at hstep
    | dumped msg => simp [Opend.step, hclient] at hstep
    | recv_fd r printed =>
      simp only [Opend.step, hclient] at hstep
      split_ifs at hstep with hne
      exact h.receive (h.turn.of_recv_fd hclient) hne hstep
  | read =>
    by_cases hready : s.server = .read ∧ s.toServer ≠ []
    · exact h.read hready.1 hready.2 hstep
    · simp only [Opend.step, if_neg hready] at hstep
      exact absurd hstep.symm (Option.some_ne_none s')
  | open_ strerror =>
    refine h.open_ (fun strerror' hstrerror => ?_) hstep
    obtain rfl := Option.mem_def.mp hstrerror
    exact hG
  | write n => exact h.write hstep
  | sendmsg => exact h.sendmsg hstep
  | others errmsg nfiles => exact h.others hG hstep

/-- In every reachable state. -/
theorem inv_of_run {es : List Act} (h : Run (Opend.step uid) Uses Sys.init es s) : Inv s :=
  h.invariant inv_init fun _ _ _ hs hG hstep => hs.step hG hstep

/-- Whatever the order of the steps, however `write` cuts the messages, whenever the pieces arrive,
and whatever the server does for others: each call of `csopen` comes to an answer to its own
request, in which a descriptor is of a file that was opened for this call and for no other, and
`recv_fd` finds no error in the format of a reply. -/
theorem csopen_answers {es : List Act} (h : Run (Opend.step uid) Uses Sys.init es s) :
    (∀ q ∈ s.answers, q.request.Meets q.last q.answer) ∧ s.files.Pairwise (· < ·) ∧
      ∀ msg, s.client ≠ .dumped msg := by
  have hinv := inv_of_run h
  exact ⟨hinv.meets, hinv.sorted, hinv.turn.not_dumped⟩

/-- Whether a request is proper. -/
instance instDecidableProper (r : Request) : Decidable r.Proper :=
  decidable_of_iff (r.Fits ∧ 37 ∉ r.name.chars) ⟨fun h => ⟨h.1, h.2⟩, fun h => ⟨h.1, h.2⟩⟩

/-- Whether a step is as the parties expect. -/
instance instDecidableUses (s : Sys) : (act : Act) → Decidable (Uses s act)
  | .csopen r => inferInstanceAs (Decidable r.Proper)
  | .recvmsg short => inferInstanceAs (Decidable (short = none))
  | .open_ (some strerror) => inferInstanceAs (Decidable (37 ∉ strerror.chars))
  | .others errmsg _ => inferInstanceAs (Decidable (37 ∉ errmsg.chars))
  | .writev | .read | .open_ none | .write _ | .sendmsg => .isTrue trivial

/-- A request for the file `a`. -/
def requestA : Request := ⟨⟨[97], by decide⟩, 0⟩

/-- The text of an error. -/
def errorE : CString := ⟨[69], by decide⟩

/-- A call that is refused, with the message in two pieces, of which the first is printed before the
second is written, and a call that is not. -/
def refusedThenOpened : List Act :=
  [.csopen requestA, .writev, .read, .open_ (some errorE), .write 5, .recvmsg none, .write 11,
    .sendmsg, .others .usage 2, .recvmsg none, .csopen requestA, .writev, .read, .open_ none,
    .sendmsg, .recvmsg none]

/-- Where this leads. -/
def afterOpened : Sys where
  errmsg := .usage
  last := .usage
  nfiles := 3
  server := .read
  toServer := []
  toClient := []
  client := .outside
  answers := [⟨requestA, .empty, ⟨text "can't open a: E\n", .error 1⟩⟩,
    ⟨requestA, .usage, ⟨[], .fd ⟨2, [97], 0⟩⟩⟩]

/-- The two calls have their answers. -/
theorem csopen_answers_refusedThenOpened :
    (∀ q ∈ afterOpened.answers, q.request.Meets q.last q.answer) ∧
      afterOpened.files.Pairwise (· < ·) ∧ ∀ msg, afterOpened.client ≠ .dumped msg := by
  have hrun : Run (Opend.step 0) Uses Sys.init refusedThenOpened afterOpened :=
    Run.of_exec_restrict (by decide +kernel)
  exact csopen_answers hrun

end CxxPandora.Apue.Opend
