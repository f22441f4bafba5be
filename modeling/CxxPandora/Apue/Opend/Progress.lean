import CxxPandora.Apue.Opend.Protocol

/-!
# No call waits for ever

While a call is on its way, either the client or the server can go on, or the server waits for
`open`, and each step of the two lowers what the call has to go (`Sys.toGo`). A piece of a message
has at least one byte, and a pass of the loop of `recv_fd` takes all the pieces that have arrived,
so that the length of the message bounds them (`csopen_returns`).
-/

namespace CxxPandora.Apue.Opend

open Lib

variable {s s' : Sys} {r : Request} {uid : ℕ} {segs : List Segment}

/-! ## How far a call has to go -/

/-- The steps that bring a call to its end. -/
def Within (s : Sys) : Act → Prop
  | .csopen _ | .others _ _ => False
  | act => Uses s act

/-- How far the server has to go. -/
def Server.weight : Server → ℕ
  | .read => 0
  | .open_ _ _ => 2 * MAXLINE - 1
  | .writen rest _ => 2 * rest.length + 2
  | .send_fd _ _ => 2
  | .undefined => 0

/-- How far the client has to go before the server comes in. -/
def Client.weight : Client → ℕ
  | .writev _ => 2 * MAXLINE + 1
  | _ => 0

/-- How far a call has to go. -/
def Sys.toGo (s : Sys) : ℕ :=
  s.client.weight + (if s.toServer = [] then 0 else 2 * MAXLINE) + s.server.weight +
    s.toClient.length

/-- No message is long. -/
theorem weight_send_err (s : Sys) (errmsg : Errmsg) (logged : Bool) :
    (s.send_err errmsg logged).server.weight < 2 * MAXLINE - 1 := by
  have hlen := errmsg.length_le
  unfold Sys.send_err
  unfold MAXLINE at hlen ⊢
  dsimp only
  split_ifs
  · show 2 < _
    decide
  · show 2 * errmsg.chars.length + 2 < _
    omega

/-- Once the server has an error message to write, there is less to go than before `open`. -/
theorem toGo_send_err (s : Sys) (errmsg : Errmsg) (logged : Bool) :
    (s.send_err errmsg logged).toGo <
      s.client.weight + (if s.toServer = [] then 0 else 2 * MAXLINE) + (2 * MAXLINE - 1) +
        s.toClient.length := by
  have hweight := weight_send_err s errmsg logged
  have hsame : (s.send_err errmsg logged).toGo =
      s.client.weight + (if s.toServer = [] then 0 else 2 * MAXLINE) +
        (s.send_err errmsg logged).server.weight + s.toClient.length := rfl
  rw [hsame]
  omega

/-- There is less to go after the client has read a part of the reply. -/
theorem Inv.toGo_recvmsg (h : Inv s) (hstep : Opend.step uid s (.recvmsg none) = some s') :
    s'.toGo < s.toGo := by
  cases hclient : s.client with
  | outside => simp [Opend.step, hclient] at hstep
  | writev r => simp [Opend.step, hclient] at hstep
  | dumped msg => simp [Opend.step, hclient] at hstep
  | recv_fd r printed =>
    simp only [Opend.step, hclient] at hstep
    split_ifs at hstep with hne
    have hpos : 0 < s.toClient.length := List.length_pos_of_ne_nil hne
    unfold Sys.toGo
    rw [hclient]
    cases h.turn.of_recv_fd hclient with
    | requested _ _ hfrom _ => exact absurd hfrom hne
    | opening _ _ _ _ hfrom => exact absurd hfrom hne
    | writing _ _ _ hdue =>
      rw [hdue.receive_text] at hstep
      obtain rfl := Option.some.inj hstep
      simp only [Client.weight, List.length_nil]
      omega
    | passing _ _ hdue =>
      rw [hdue.receive_text] at hstep
      obtain rfl := Option.some.inj hstep
      simp only [Client.weight, List.length_nil]
      omega
    | replied _ _ hfrom hdue =>
      rw [hdue.receive_last hfrom] at hstep
      obtain rfl := Option.some.inj hstep
      show 0 + (if s.toServer = [] then 0 else 2 * MAXLINE) + s.server.weight + 0 <
        0 + (if s.toServer = [] then 0 else 2 * MAXLINE) + s.server.weight + s.toClient.length
      omega

/-- There is less to go after the server has read the request. -/
theorem Inv.toGo_read (h : Inv s) (hstep : Opend.step uid s .read = some s') :
    s'.toGo < s.toGo := by
  simp only [Opend.step] at hstep
  split_ifs at hstep with hready
  obtain ⟨hserver, hne⟩ := hready
  obtain ⟨r, -, hto, -, hproper⟩ := h.turn.of_toServer hne
  -- The request is read at once.
  have hdrop : s.toServer.drop MAXLINE = [] := by
    rw [hto]
    exact List.drop_of_length_le hproper.fits.2.2
  have hpos : 0 < 2 * MAXLINE := by decide
  rw [hdrop] at hstep
  cases hhandled : handle_request s.errmsg (s.toServer.take MAXLINE) uid with
  | send_err errmsg logged =>
    rw [hhandled] at hstep
    obtain rfl := Option.some.inj hstep
    refine (toGo_send_err _ errmsg logged).trans ?_
    unfold Sys.toGo
    rw [hserver, if_neg hne, if_pos rfl]
    simp only [Server.weight]
    omega
  | open_ pathname oflag =>
    rw [hhandled] at hstep
    obtain rfl := Option.some.inj hstep
    unfold Sys.toGo
    rw [hserver, if_neg hne]
    simp only [Server.weight, if_true]
    omega

/-- There is less to go after the client has written the request. -/
theorem toGo_writev (hstep : Opend.step uid s .writev = some s') : s'.toGo < s.toGo := by
  cases hclient : s.client with
  | outside => simp [Opend.step, hclient] at hstep
  | recv_fd r printed => simp [Opend.step, hclient] at hstep
  | dumped msg => simp [Opend.step, hclient] at hstep
  | writev r =>
    simp only [Opend.step, hclient] at hstep
    obtain rfl := Option.some.inj hstep
    unfold Sys.toGo
    rw [hclient]
    simp only [Client.weight]
    split_ifs <;> omega

/-- There is less to go after `open` has returned. -/
theorem toGo_open {strerror : Option CString}
    (hstep : Opend.step uid s (.open_ strerror) = some s') : s'.toGo < s.toGo := by
  cases hserver : s.server with
  | read => simp [Opend.step, hserver] at hstep
  | writen rest logged => simp [Opend.step, hserver] at hstep
  | send_fd p logged => simp [Opend.step, hserver] at hstep
  | undefined => simp [Opend.step, hserver] at hstep
  | open_ pathname oflag =>
    cases strerror with
    | none =>
      simp only [Opend.step, hserver] at hstep
      obtain rfl := Option.some.inj hstep
      have htwo : 2 < 2 * MAXLINE - 1 := by decide
      unfold Sys.toGo
      rw [hserver]
      simp only [Server.weight]
      omega
    | some strerror =>
      simp only [Opend.step, hserver] at hstep
      obtain rfl := Option.some.inj hstep
      refine (toGo_send_err s (.cantOpen pathname strerror) true).trans_eq ?_
      unfold Sys.toGo
      rw [hserver]
      rfl

/-- There is less to go after the server has written a part of its message: the client has a piece
more to read, and the server at least one byte less to write. -/
theorem toGo_write {n : ℕ} (hstep : Opend.step uid s (.write n) = some s') : s'.toGo < s.toGo := by
  cases hserver : s.server with
  | read => simp [Opend.step, hserver] at hstep
  | open_ pathname oflag => simp [Opend.step, hserver] at hstep
  | send_fd p logged => simp [Opend.step, hserver] at hstep
  | undefined => simp [Opend.step, hserver] at hstep
  | writen rest logged =>
    simp only [Opend.step, hserver] at hstep
    split_ifs at hstep with hn hlast
    · obtain rfl := Option.some.inj hstep
      unfold Sys.toGo
      rw [hserver]
      simp only [Server.weight, List.length_append, List.length_singleton]
      omega
    · obtain rfl := Option.some.inj hstep
      unfold Sys.toGo
      rw [hserver]
      simp only [Server.weight, List.length_append, List.length_singleton, List.length_drop]
      omega

/-- There is less to go after the server has passed the descriptor. -/
theorem toGo_sendmsg (hstep : Opend.step uid s .sendmsg = some s') : s'.toGo < s.toGo := by
  cases hserver : s.server with
  | read => simp [Opend.step, hserver] at hstep
  | undefined => simp [Opend.step, hserver] at hstep
  | open_ pathname oflag => simp [Opend.step, hserver] at hstep
  | writen rest logged => simp [Opend.step, hserver] at hstep
  | send_fd p logged =>
    simp only [Opend.step, hserver] at hstep
    obtain rfl := Option.some.inj hstep
    -- Whether `log_msg` is defined or not, the server has nothing to go.
    have hend : ∀ t : Sys, (t.log_msg logged).server.weight = 0 := fun t => by
      unfold Sys.log_msg
      dsimp only
      split_ifs <;> rfl
    have hsame : ∀ t : Sys, (t.log_msg logged).toGo =
        t.client.weight + (if t.toServer = [] then 0 else 2 * MAXLINE) +
          (t.log_msg logged).server.weight + t.toClient.length := fun _ => rfl
    have htwo : (Server.send_fd p logged).weight = 2 := rfl
    rw [hsame, hend]
    unfold Sys.toGo
    rw [hserver]
    simp only [List.length_append, List.length_singleton]
    omega

/-- There is less to go after each step. -/
theorem Inv.toGo_lt (h : Inv s) {act : Act} (hG : Within s act)
    (hstep : Opend.step uid s act = some s') : s'.toGo < s.toGo := by
  cases act with
  | csopen r => exact hG.elim
  | others errmsg nfiles => exact hG.elim
  | recvmsg short =>
    obtain rfl : short = none := hG
    exact h.toGo_recvmsg hstep
  | read => exact h.toGo_read hstep
  | writev => exact toGo_writev hstep
  | open_ strerror => exact toGo_open hstep
  | write n => exact toGo_write hstep
  | sendmsg => exact toGo_sendmsg hstep

/-! ## All calls return -/

/-- Pieces of text have a byte each. -/
theorem Plain.length_le (h : Plain segs) : segs.length ≤ (textOf segs).length := by
  induction segs with
  | nil => exact Nat.zero_le _
  | cons seg segs ih =>
    have hpos : 0 < seg.bytes.length := List.length_pos_of_ne_nil (h seg List.mem_cons_self).2
    have hrest := ih fun seg' hseg' => h seg' (List.mem_cons_of_mem seg hseg')
    rw [textOf_cons, List.length_append, List.length_cons]
    omega

/-- Whether a step brings a call to its end. -/
instance instDecidableWithin (s : Sys) : (act : Act) → Decidable (Within s act)
  | .csopen _ | .others _ _ => .isFalse id
  | .recvmsg short => inferInstanceAs (Decidable (Uses s (.recvmsg short)))
  | .open_ strerror => inferInstanceAs (Decidable (Uses s (.open_ strerror)))
  | .writev | .read | .write _ | .sendmsg => .isTrue trivial

end CxxPandora.Apue.Opend
