import CxxPandora.Endpoint.Codec
import CxxPandora.Lib.Machine

/-!
# The endpoint adapter over a byte stream

`EndpointToTransportAdapter<LengthPrefixedCodec>` of `idioms/endpoint1/async_endpoint.cpp`, with the
echo endpoint and the client of `main.cpp`. The adapter hands every chunk that it reads to the
endpoint as it is, without decoding it, and frames the endpoint's response; then it reads once more
with a callback that drops the chunk and starts over. The client reads its reply once, into 1024
bytes. `echoes_iff` says for which chunks, and for which read of the client's, the client gets its
message back.

The source does not compile as it stands, and is read with two repairs. `self->start_read`, which
the adapter calls to read on, is its transport's `start_read`, the only method of that name; and the
lambdas that capture `self` alone reach the members of `*this` through it.
-/

namespace CxxPandora.Endpoint

open Lib LengthPrefixedCodec

/-! ## The endpoint -/

/-- A time of the steady clock, a 64-bit number of ticks. -/
structure TimePoint where
  ticks : ℤ
  lt : ticks < 2^63

/-- `TimePoint::max()`. -/
def TimePoint.max : TimePoint := ⟨2^63 - 1, by decide⟩

/-- `Context`, with its defaults: a token that is not cancelled, and no deadline. -/
structure Context where
  cancelled : Bool := false
  deadline : TimePoint := TimePoint.max

/-- The body that the endpoint of `main` rejects. -/
def errorBody : List UInt8 := [101, 114, 114, 111, 114]

/-- The endpoint of `main`, at the time `now`: it echoes the request. -/
def ep (now : TimePoint) (ctx : Context) (req : ByteString) : Result :=
  if ctx.cancelled then .error "cancelled"
  else if now.ticks > ctx.deadline.ticks then .error "deadline exceeded"
  else if req.bytes = errorBody then .error "simulated error"
  else .response req

/-! ## The transport and the adapter -/

/-- `TcpTransport::max_read`. -/
def maxRead : ℕ := 64 * 1024

/-- A completed read: at most `max_read` bytes, none after an error, and the time. -/
structure Read where
  bytes : List UInt8
  now : TimePoint
  length_le : bytes.length ≤ maxRead

/-- The bytes read, as a view. -/
def Read.view (r : Read) : ByteString :=
  ⟨r.bytes, lt_of_le_of_lt r.length_le (by decide)⟩

/-- The callback that waits for the next read: the one of `start`, which runs the endpoint, or the
one that the adapter leaves after a request, which calls `start`. -/
inductive OnRead
  | request
  | restart
  deriving DecidableEq

/-- The adapter between two reads: the callback that waits, none once the transport is closed, and
the bytes written so far. -/
structure Adapter where
  onRead : Option OnRead
  written : List UInt8

/-- The adapter after `start`. -/
def Adapter.start : Adapter := ⟨some .request, []⟩

/-- A read completes. `none` when no read was outstanding, or when a response was too long for
`serialize`. -/
def Adapter.complete : Step Adapter Read
  | ⟨none, _⟩, _ => none
  | ⟨some .restart, written⟩, _ => some ⟨some .request, written⟩
  | ⟨some .request, written⟩, r =>
    -- An error or the end of the stream: `transport_.close()`.
    if r.bytes = [] then some ⟨none, written⟩
    else match ep r.now {} r.view with
      | .response resp =>
        (serialize resp).map fun encoded => ⟨some .restart, written ++ encoded.bytes⟩
      -- Nothing is written for an error.
      | .error _ => some ⟨some .restart, written⟩

/-- The size of the client's `reply`. -/
def replySize : ℕ := 1024

/-- The client's one `read_some` returns `n`: the first `n` bytes of the stream, at least one and at
most as many as `reply` holds. -/
def readSome (stream : List UInt8) (n : ℕ) : Option ByteString :=
  if 0 < n ∧ n ≤ replySize ∧ n ≤ stream.length then ByteString.ofBytes (stream.take n) else none

/-- What the client of `main` makes of a reply: the body, when the header declares as many bytes as
follow it. -/
def clientDecode (reply : ByteString) : Option (List UInt8) :=
  match reply.bytes.idxOf? newline with
  | none => none
  | some pos =>
    match stoull (reply.bytes.take pos) with
    | none => none
    | some n =>
      if sizeAdd (sizeAdd pos 1) n = reply.bytes.length then some (reply.bytes.drop (pos + 1))
      else none

/-- The adapter answers the reads with one frame, and the client, whose `read_some` returns `n`,
decodes its reply to `m`. -/
def Echoes (m : List UInt8) (reads : List Read) (n : ℕ) : Prop :=
  ∃ (a : Adapter) (x : List UInt8) (reply : ByteString),
    exec Adapter.complete Adapter.start reads = some a ∧ a.written = frame x ∧
    readSome a.written n = some reply ∧ clientDecode reply = some m

/-! ## The client on frames -/

/-- What `read_some` returns. -/
theorem readSome_eq_some {stream : List UInt8} {n : ℕ} {reply : ByteString}
    (h : readSome stream n = some reply) :
    n ≤ replySize ∧ n ≤ stream.length ∧ reply.bytes = stream.take n := by
  unfold readSome at h
  split_ifs at h with hn
  exact ⟨hn.2.1, hn.2.2, ByteString.bytes_of_ofBytes h⟩

/-- The client's read may return a whole frame that fits in `reply`. -/
theorem readSome_frame {x : List UInt8} (hle : (frame x).length ≤ replySize) :
    ∃ reply, readSome (frame x) (frame x).length = some reply ∧ reply.bytes = frame x := by
  have hpos : 0 < (frame x).length := by
    rw [length_frame]
    omega
  have htake : (frame x).take (frame x).length = frame x := List.take_length
  have hfit : (frame x).length < 2^64 := lt_of_le_of_lt hle (by decide)
  refine ⟨⟨frame x, hfit⟩, ?_, rfl⟩
  rw [readSome, if_pos ⟨hpos, hle, le_rfl⟩, htake, ByteString.ofBytes_eq hfit]

/-- The client on a header that declares `x.length` bytes, and some bytes after it: it takes these
when they are as many. -/
theorem clientDecode_header {x body : List UInt8} (reply : ByteString)
    (h : reply.bytes = decimal x.length ++ newline :: body)
    (hx : (frame x).length < 2^64) :
    clientDecode reply = if body.length = x.length then some body else none := by
  have hfind : reply.bytes.idxOf? newline = some (decimal x.length).length := by
    rw [h]
    exact idxOf?_newline x.length body
  have hheader : reply.bytes.take (decimal x.length).length = decimal x.length := by
    rw [h, List.take_left]
  have hlen : reply.bytes.length = (decimal x.length).length + 1 + body.length := by
    rw [h, List.length_append, List.length_cons]
    omega
  rw [length_frame] at hx
  have hsum : sizeAdd (sizeAdd (decimal x.length).length 1) x.length =
      (decimal x.length).length + 1 + x.length := by
    rw [sizeAdd_eq (show (decimal x.length).length + 1 < 2^64 by omega), sizeAdd_eq hx]
  have hbody : reply.bytes.drop ((decimal x.length).length + 1) = body := by
    rw [h, List.drop_append, List.drop_of_length_le (by omega), List.nil_append,
      Nat.add_sub_cancel_left, List.drop_succ_cons, List.drop_zero]
  simp only [clientDecode, hfind, hheader, stoull_decimal (show x.length < 2^64 by omega), hsum,
    hlen, hbody]
  by_cases heq : body.length = x.length
  · rw [if_pos (by omega), if_pos heq]
  · rw [if_neg (by omega), if_neg heq]

/-- The client decodes a frame to its body. -/
theorem clientDecode_frame {x : List UInt8} (reply : ByteString) (h : reply.bytes = frame x) :
    clientDecode reply = some x := by
  have hx : (frame x).length < 2^64 := by
    rw [← h]
    exact reply.size_lt
  rw [clientDecode_header reply h hx, if_pos rfl]

/-- The client decodes a part of a frame, from its start, only when it is all of it. -/
theorem eq_of_clientDecode {x m : List UInt8} {reply : ByteString} (h : reply.bytes <+: frame x)
    (hx : (frame x).length < 2^64) (hdec : clientDecode reply = some m) :
    reply.bytes = frame x ∧ x = m := by
  by_cases hall : reply.bytes = frame x
  · exact ⟨hall, Option.some.inj ((clientDecode_frame reply hall).symm.trans hdec)⟩
  · -- The frame is cut inside its header, or inside its body.
    exfalso
    rcases prefix_frame h hall with hhead | ⟨body, hbody, hlt⟩
    · have hfind : reply.bytes.idxOf? newline = none := by
        rw [List.idxOf?_eq_none_iff]
        exact fun hmem => newline_notMem_decimal _ (hhead.subset hmem)
      simp only [clientDecode, hfind] at hdec
      exact Option.some_ne_none m hdec.symm
    · rw [clientDecode_header reply hbody hx, if_neg (Nat.ne_of_lt hlt)] at hdec
      exact Option.some_ne_none m hdec.symm

/-! ## The adapter on reads -/

/-- What the adapter writes in answer to a chunk. -/
def answer (chunk : List UInt8) : List UInt8 := if chunk = errorBody then [] else frame chunk

/-- A frame is not empty. -/
theorem frame_ne_nil (x : List UInt8) : frame x ≠ [] := by
  rw [frame]
  exact List.append_ne_nil_of_right_ne_nil _ (List.cons_ne_nil _ _)

/-- The endpoint, called as the adapter calls it, echoes every request but `"error"`. -/
theorem ep_default (now : TimePoint) (req : ByteString) :
    ep now {} req = if req.bytes = errorBody then .error "simulated error" else .response req := by
  have hnow : ¬ now.ticks > ({} : Context).deadline.ticks := by
    have hlt := now.lt
    show ¬ now.ticks > 2^63 - 1
    omega
  unfold ep
  rw [if_neg Bool.false_ne_true, if_neg hnow]

/-- A chunk is short enough for `serialize`. -/
theorem serialize_view (r : Read) :
    ∃ encoded, serialize r.view = some encoded ∧ encoded.bytes = frame r.bytes := by
  have hlen := length_frame r.bytes
  have hle : r.bytes.length ≤ 65536 := r.length_le
  have hdec : (decimal r.bytes.length).length ≤ 5 := length_decimal_le (by omega) (by omega)
  have hfit : (frame r.view.bytes).length < 2^64 := by
    show (frame r.bytes).length < 2^64
    omega
  exact ⟨_, ByteString.ofBytes_eq hfit, rfl⟩

/-- A chunk that comes while the callback of `start` waits: the adapter writes its answer, and
leaves the callback that drops the next one. -/
theorem complete_request {r : Read} (hr : r.bytes ≠ []) (written : List UInt8) :
    Adapter.complete ⟨some .request, written⟩ r =
      some ⟨some .restart, written ++ answer r.bytes⟩ := by
  obtain ⟨encoded, hser, hbytes⟩ := serialize_view r
  simp only [Adapter.complete, if_neg hr, ep_default, answer]
  by_cases herr : r.bytes = errorBody
  · have hview : r.view.bytes = errorBody := herr
    rw [if_pos hview, if_pos herr, List.append_nil]
  · have hview : ¬ r.view.bytes = errorBody := herr
    rw [if_neg hview, if_neg herr]
    simp only [hser, Option.map_some, hbytes]

/-- What is written stays written. -/
theorem written_append {reads : List Read} (hne : ∀ r ∈ reads, r.bytes ≠ []) (c : OnRead)
    (written : List UInt8) :
    ∃ c' rest, exec Adapter.complete ⟨some c, written⟩ reads = some ⟨some c', written ++ rest⟩ := by
  induction reads generalizing c written with
  | nil => exact ⟨c, [], by rw [List.append_nil]; rfl⟩
  | cons r reads ih =>
    have hr := hne r List.mem_cons_self
    have hreads : ∀ r ∈ reads, r.bytes ≠ [] := fun r' h' => hne r' (List.mem_cons_of_mem r h')
    cases c with
    | request =>
      obtain ⟨c', rest, h⟩ := ih hreads .restart (written ++ answer r.bytes)
      refine ⟨c', answer r.bytes ++ rest, ?_⟩
      rw [exec, complete_request hr, Option.bind_some, h, List.append_assoc]
    | restart =>
      obtain ⟨c', rest, h⟩ := ih hreads .request written
      exact ⟨c', rest, h⟩

/-! ## When the client gets its message back -/

/-- Words `h`, `x`, and `t` with `h ++ x = x ++ t`: the letters of `x` are letters of `h`. -/
theorem mem_of_append_comm {h x t : List UInt8} (hh : h ≠ []) (heq : h ++ x = x ++ t) {c : UInt8}
    (hc : c ∈ x) : c ∈ h := by
  -- By induction on the length of `x`, which is a prefix of `h` or starts with `h`.
  induction hn : x.length using Nat.strong_induction_on generalizing x with
  | _ n ih =>
    rcases List.append_eq_append_iff.mp heq with ⟨s, hx, hx'⟩ | ⟨s, hh', -⟩
    · rw [hx] at hc
      rcases List.mem_append.mp hc with hc | hc
      · exact hc
      · have hpos := List.length_pos_iff.mpr hh
        have hlt : s.length < n := by
          rw [← hn, hx, List.length_append]
          omega
        refine ih s.length hlt ?_ hc rfl
        rw [← hx, hx']
    · rw [hh']
      exact List.mem_append_left s hc

/-- A frame that starts with its own body consists of digits and newlines. -/
theorem notMem_of_frame_eq_append {m t : List UInt8} (h : frame m = m ++ t) {c : UInt8}
    (hdigit : isDigit c = false) (hnl : c ≠ newline) : c ∉ frame m := by
  have hhead : c ∉ decimal m.length ++ [newline] := by
    rw [List.mem_append, List.mem_singleton, not_or]
    refine ⟨fun hc => ?_, hnl⟩
    rw [isDigit_of_mem_decimal hc] at hdigit
    exact Bool.false_ne_true hdigit.symm
  have hsplit : frame m = (decimal m.length ++ [newline]) ++ m := by
    rw [frame, List.append_assoc, List.singleton_append]
  rw [hsplit] at h ⊢
  rw [List.mem_append, not_or]
  refine ⟨hhead, fun hc => hhead (mem_of_append_comm ?_ h hc)⟩
  exact List.append_ne_nil_of_right_ne_nil _ (List.cons_ne_nil _ _)

/-- A nonempty prefix of a frame is not `"error"`, since a frame starts with a digit. -/
theorem ne_errorBody_of_append {m chunk t : List UInt8} (h : chunk ++ t = frame m) :
    chunk ≠ errorBody := by
  rintro rfl
  cases hd : decimal m.length with
  | nil => exact decimal_ne_nil _ hd
  | cons d ds =>
    have hdigit : isDigit d = true :=
      isDigit_of_mem_decimal (n := m.length) (by rw [hd]; exact List.mem_cons_self)
    rw [frame, hd] at h
    have h101 : 101 = d := (List.cons.inj h).1
    rw [← h101] at hdigit
    exact absurd hdigit (by decide)

/-- The first chunk of a frame is answered with its own frame. -/
theorem exec_first {m t : List UInt8} {r : Read} (hr : r.bytes ≠ []) (h : r.bytes ++ t = frame m)
    (reads : List Read) :
    exec Adapter.complete Adapter.start (r :: reads) =
      exec Adapter.complete ⟨some .restart, frame r.bytes⟩ reads := by
  have hans : answer r.bytes = frame r.bytes := if_neg (ne_errorBody_of_append h)
  rw [exec, Adapter.start, complete_request hr, hans, List.nil_append, Option.bind_some]

/-- After a chunk that is answered, the next one is dropped, and the one after it is answered. -/
theorem exec_restart {r₂ r₃ : Read} {reads : List Read} (hr₃ : r₃.bytes ≠ [])
    (hne : ∀ r ∈ reads, r.bytes ≠ []) (written : List UInt8) :
    ∃ c rest, exec Adapter.complete ⟨some .restart, written⟩ (r₂ :: r₃ :: reads) =
      some ⟨some c, written ++ (answer r₃.bytes ++ rest)⟩ := by
  obtain ⟨c, rest, hrest⟩ := written_append hne .restart (written ++ answer r₃.bytes)
  refine ⟨c, rest, ?_⟩
  rw [exec, Adapter.complete, Option.bind_some, exec, complete_request hr₃, Option.bind_some,
    hrest, List.append_assoc]

/-- What the adapter writes is one frame only when it has answered one chunk. -/
theorem written_eq_frame {r₁ : Read} {rest x : List UInt8} (h : frame r₁.bytes ++ rest = frame x) :
    x = r₁.bytes ∧ rest = [] := by
  rw [← List.append_nil (frame x)] at h
  obtain ⟨hx, hrest⟩ := frame_append_inj h
  exact ⟨hx.symm, hrest⟩

/-- When the adapter has written the frame of the first chunk, the client gets this chunk, and only
from a read of the whole frame. -/
theorem eq_of_readSome {r : Read} {m : List UInt8} {n : ℕ} {reply : ByteString}
    (hread : readSome (frame r.bytes) n = some reply) (hdec : clientDecode reply = some m) :
    r.bytes = m ∧ n = (frame m).length ∧ n ≤ replySize := by
  obtain ⟨hsize, hlen, hbytes⟩ := readSome_eq_some hread
  obtain ⟨encoded, -, hencoded⟩ := serialize_view r
  have hfit : (frame r.bytes).length < 2^64 := by
    rw [← hencoded]
    exact encoded.size_lt
  have hprefix : reply.bytes <+: frame r.bytes := by
    rw [hbytes]
    exact List.take_prefix n _
  obtain ⟨hall, hm⟩ := eq_of_clientDecode hprefix hfit hdec
  have hn : n = (frame r.bytes).length := by
    rw [← hall, hbytes, List.length_take]
    omega
  exact ⟨hm, hm ▸ hn, hsize⟩

/-- For every way of reading a message's frame in nonempty chunks: the adapter answers with one
frame that the client decodes to the message exactly when the frame comes in two chunks, the first
of which is the message itself, and the client's read returns the whole frame. -/
theorem echoes_iff_of_flatten {m : List UInt8} {reads : List Read} (n : ℕ)
    (hreads : (reads.map Read.bytes).flatten = frame m) (hne : ∀ r ∈ reads, r.bytes ≠ []) :
    Echoes m reads n ↔ (∃ r₁ r₂, reads = [r₁, r₂] ∧ r₁.bytes = m) ∧
      n = (frame m).length ∧ n ≤ replySize := by
  cases reads with
  | nil => exact absurd hreads.symm (frame_ne_nil _)
  | cons r₁ reads =>
    rw [List.map_cons, List.flatten_cons] at hreads
    have hfirst := exec_first (hne r₁ List.mem_cons_self) hreads
    constructor
    · rintro ⟨a, x, reply, hrun, hx, hread, hdec⟩
      rw [hfirst] at hrun
      -- By the number of chunks after the first: none, one, or more.
      match reads, hreads, hne, hrun with
      | [], hreads, _, hrun =>
        -- One chunk, the whole frame: the client gets the frame instead of the message.
        obtain rfl := Option.some.inj hrun
        obtain ⟨hm, -⟩ := eq_of_readSome hread hdec
        rw [hm, List.map_nil, List.flatten_nil, List.append_nil] at hreads
        have hlen := congrArg List.length hreads
        rw [length_frame] at hlen
        omega
      | [r₂], _, _, hrun =>
        obtain rfl := Option.some.inj hrun
        obtain ⟨hm, hn⟩ := eq_of_readSome hread hdec
        exact ⟨⟨r₁, r₂, rfl, hm⟩, hn⟩
      | r₂ :: r₃ :: rs, hreads, hne, hrun =>
        -- Three chunks or more: the third one is answered too, unless it is `"error"`.
        have hr₃ := hne r₃ (by simp)
        have hrs : ∀ r ∈ rs, r.bytes ≠ [] := fun r h => hne r (by simp [h])
        obtain ⟨c, rest, hexec⟩ := exec_restart hr₃ hrs (frame r₁.bytes)
        rw [hexec] at hrun
        obtain rfl := Option.some.inj hrun
        obtain ⟨-, hnil⟩ := written_eq_frame hx
        have h₃ : r₃.bytes = errorBody := by
          by_contra hno
          rw [answer, if_neg hno] at hnil
          exact frame_ne_nil _ (List.append_eq_nil_iff.mp hnil).1
        dsimp only at hread
        rw [hnil, List.append_nil] at hread
        obtain ⟨hm, -⟩ := eq_of_readSome hread hdec
        -- The frame starts with its own body, so that it has no `'e'`.
        rw [hm] at hreads
        have he := notMem_of_frame_eq_append hreads.symm (c := 101) (by decide) (by decide)
        rw [← hreads] at he
        exact absurd (by simp [h₃, errorBody]) he
    · rintro ⟨⟨r₁', r₂, hcons, hm⟩, hn, hle⟩
      obtain ⟨rfl, rfl⟩ := List.cons.inj hcons
      rw [← hm] at hn ⊢
      obtain ⟨reply, hread, hreply⟩ := readSome_frame (hn ▸ hle)
      rw [hn]
      refine ⟨⟨some .request, frame r₁.bytes⟩, r₁.bytes, reply, ?_, rfl, hread, ?_⟩
      · rw [hfirst]
        rfl
      · exact clientDecode_frame reply hreply

/-- For every message whose frame fits in memory, every way of reading the frame in nonempty chunks
of at most `max_read` bytes, and every number of bytes that the client's `read_some` returns: the
adapter answers with one frame that the client decodes to the message exactly when the frame comes
in two chunks, the first of which is the message itself, and the client's read returns all of the
answer, which is as long as the request. -/
theorem echoes_iff (m : ByteString) (h : (frame m.bytes).length < 2^64) :
    ∃ f, serialize m = some f ∧ ∀ (reads : List Read) (n : ℕ),
      (reads.map Read.bytes).flatten = f.bytes → (∀ r ∈ reads, r.bytes ≠ []) →
        (Echoes m.bytes reads n ↔ (∃ r₁ r₂, reads = [r₁, r₂] ∧ r₁.bytes = m.bytes) ∧
          n = f.bytes.length ∧ n ≤ replySize) := by
  have hser : serialize m = some ⟨frame m.bytes, h⟩ := ByteString.ofBytes_eq h
  exact ⟨_, hser, fun reads n hreads hne => echoes_iff_of_flatten n hreads hne⟩

/-- The chunk at the start of the clock. -/
def Read.ofBytes (bytes : List UInt8) (h : bytes.length ≤ maxRead) : Read :=
  ⟨bytes, ⟨0, by decide⟩, h⟩

/-- `echoes_iff` for the message `"1"`, whose frame `"1\n1"` starts with it. -/
theorem echoes_iff_one :
    ∃ f, serialize ⟨[49], by decide⟩ = some f ∧ Echoes [49]
      [.ofBytes [49] (by decide), .ofBytes [10, 49] (by decide)] 3 := by
  obtain ⟨f, hser, hall⟩ := echoes_iff ⟨[49], by decide⟩ (by simp [frame, decimal])
  have hf : f.bytes = [49, 10, 49] := by
    rw [bytes_of_serialize hser]
    simp [frame, decimal, digit, newline]
  refine ⟨f, hser, (hall _ 3 ?_ (by decide)).mpr ⟨⟨_, _, rfl, rfl⟩, ?_, by decide⟩⟩
  · rw [hf]
    rfl
  · rw [hf]
    rfl

/-- The message `"a"`, whose frame `"1\na"` comes in one chunk, is not echoed, whatever the client's
read returns: the adapter frames the frame. -/
theorem not_echoes_a : serialize ⟨[97], by decide⟩ = some ⟨[49, 10, 97], by decide⟩ ∧
    ∀ n, ¬ Echoes [97] [.ofBytes [49, 10, 97] (by decide)] n := by
  constructor
  · simp [serialize, frame, decimal, digit, ByteString.ofBytes, newline]
  · rintro n ⟨a, x, reply, hrun, -, hread, hdec⟩
    have hwritten : a.written = frame [49, 10, 97] := by
      rw [exec, Adapter.start, complete_request (List.cons_ne_nil _ _), Option.bind_some] at hrun
      rw [← Option.some.inj hrun]
      rfl
    rw [hwritten] at hread
    obtain ⟨hm, -⟩ := eq_of_readSome (r := .ofBytes [49, 10, 97] (by decide)) hread hdec
    exact absurd hm (by decide)

end CxxPandora.Endpoint
