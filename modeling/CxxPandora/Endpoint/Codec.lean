import CxxPandora.Lib.Bytes
import CxxPandora.Lib.Words

/-!
# The length-prefixed codec

`LengthPrefixedCodec` of `idioms/endpoint1/endpoint.h`. A frame is the decimal length of a body, a
newline, and the body. `deserialize_serialize` shows that the decoder reads the body back whatever
follows the frame, and that it rejects every strict prefix of a frame. `honoursLength_iff` says
which buffers, frames or not, it reads as their header declares.
-/

namespace CxxPandora.Endpoint

open Lib

/-- `Result`: a response, which is a view of bytes, or an error text. -/
inductive Result
  | response (r : ByteString)
  | error (message : String)

/-- The byte `'\n'`. -/
def newline : UInt8 := 10

namespace LengthPrefixedCodec

/-- The bytes of a body's frame. -/
def frame (v : List UInt8) : List UInt8 := decimal v.length ++ newline :: v

/-- `serialize`: the frame as a vector of bytes; `none` when it is too long for one. -/
def serialize (v : ByteString) : Option ByteString := ByteString.ofBytes (frame v.bytes)

/-- `deserialize`. The comparison of the declared length with what follows is in `size_t`
arithmetic. -/
def deserialize (buf : ByteString) : Result :=
  match buf.bytes.idxOf? newline with
  | none => .error "missing length header"
  | some pos =>
    match stoull (buf.bytes.take pos) with
    | none => .error "invalid length"
    | some n =>
      if sizeAdd (sizeAdd pos 1) n > buf.bytes.length then .error "incomplete body"
      else .response (buf.substr (pos + 1) n)

/-- A header has no newline. -/
theorem newline_notMem_decimal (n : ℕ) : newline ∉ decimal n :=
  fun h => absurd (isDigit_of_mem_decimal h) (by decide)

/-- The first newline of a frame ends its header. -/
theorem idxOf?_newline (n : ℕ) (body : List UInt8) :
    (decimal n ++ newline :: body).idxOf? newline = some (decimal n).length :=
  idxOf?_append_cons (newline_notMem_decimal n) body

/-- The length of a frame. -/
theorem length_frame (v : List UInt8) :
    (frame v).length = (decimal v.length).length + 1 + v.length := by
  rw [frame, List.length_append, List.length_cons]
  omega

/-- Frames are prefix-free: a frame and what follows it are found in any bytes that start with
it. -/
theorem frame_append_inj {x y s t : List UInt8} (h : frame x ++ s = frame y ++ t) :
    x = y ∧ s = t := by
  rw [frame, frame, List.append_assoc, List.append_assoc, List.cons_append, List.cons_append] at h
  -- The first newline ends both headers, so that they declare the same length.
  have hpos : (decimal x.length).length = (decimal y.length).length := by
    have hfind := congrArg (List.idxOf? newline) h
    rw [idxOf?_newline, idxOf?_newline] at hfind
    exact Option.some.inj hfind
  obtain ⟨hheader, hbody⟩ := List.append_inj h hpos
  have hlen : x.length = y.length := by
    rw [← digitsValue_decimal x.length, hheader, digitsValue_decimal]
  exact List.append_inj (List.cons.inj hbody).2 hlen

/-- What `serialize` returns is the frame. -/
theorem bytes_of_serialize {v f : ByteString} (h : serialize v = some f) :
    f.bytes = frame v.bytes :=
  ByteString.bytes_of_ofBytes h

/-- The decoder on a header that declares `n` bytes, and some bytes after it: a response with the
first `n` of them when there are as many, and an error otherwise. The sum of the header's length and
`n` does not wrap. -/
theorem deserialize_header {n : ℕ} {body : List UInt8} (buf : ByteString)
    (hbuf : buf.bytes = decimal n ++ newline :: body)
    (hn : (decimal n).length + 1 + n < 2^64) :
    deserialize buf = if body.length < n then .error "incomplete body"
      else .response (buf.substr ((decimal n).length + 1) n) := by
  have hfind : buf.bytes.idxOf? newline = some (decimal n).length := by
    rw [hbuf]
    exact idxOf?_newline n body
  have hheader : buf.bytes.take (decimal n).length = decimal n := by
    rw [hbuf, List.take_left]
  have hlen : buf.bytes.length = (decimal n).length + 1 + body.length := by
    rw [hbuf, List.length_append, List.length_cons]
    omega
  have hsum : sizeAdd (sizeAdd (decimal n).length 1) n = (decimal n).length + 1 + n := by
    rw [sizeAdd_eq (show (decimal n).length + 1 < 2^64 by omega), sizeAdd_eq hn]
  simp only [deserialize, hfind, hheader, stoull_decimal (show n < 2^64 by omega), hsum, hlen]
  by_cases hlt : body.length < n
  · rw [if_pos (by omega), if_pos hlt]
  · rw [if_neg (by omega), if_neg hlt]

/-- A strict prefix of a frame is a prefix of its header, or its header and newline with a strict
prefix of its body. -/
theorem prefix_frame {v p : List UInt8} (hp : p <+: frame v) (hne : p ≠ frame v) :
    p <+: decimal v.length ∨
      ∃ body, p = decimal v.length ++ newline :: body ∧ body.length < v.length := by
  obtain ⟨t, ht⟩ := hp
  rcases List.append_eq_append_iff.mp ht with ⟨s, hs, -⟩ | ⟨s, hs, hs'⟩
  · exact Or.inl ⟨s, hs.symm⟩
  · cases s with
    | nil =>
      rw [List.append_nil] at hs
      rw [hs]
      exact Or.inl (List.prefix_refl _)
    | cons c body =>
      rw [List.cons_append, List.cons.injEq] at hs'
      obtain ⟨rfl, hv⟩ := hs'
      refine Or.inr ⟨body, hs, ?_⟩
      have ht0 : t ≠ [] := by
        rintro rfl
        rw [List.append_nil] at ht
        exact hne ht
      have htpos := List.length_pos_iff.mpr ht0
      rw [hv, List.length_append]
      omega

/-- Every body whose frame fits in memory is framed, the decoder returns the body from the frame
followed by any bytes, and an error from every strict prefix of the frame. -/
theorem deserialize_serialize (v : ByteString) (h : (frame v.bytes).length < 2^64) :
    ∃ f, serialize v = some f ∧
      (∀ rest buf : ByteString, buf.bytes = f.bytes ++ rest.bytes →
        deserialize buf = .response v) ∧
      ∀ p : ByteString, p.bytes <+: f.bytes → p.bytes ≠ f.bytes →
        ∃ message, deserialize p = .error message := by
  have hfit : (decimal v.bytes.length).length + 1 + v.bytes.length < 2^64 := by
    rwa [← length_frame]
  have hser : serialize v = some ⟨frame v.bytes, h⟩ := ByteString.ofBytes_eq h
  have hf := bytes_of_serialize hser
  refine ⟨_, hser, fun rest buf hbuf => ?_, fun p hp hne => ?_⟩
  · -- The whole frame: the declared length is the body's, and the rest stays behind.
    have hbuf' : buf.bytes = decimal v.bytes.length ++ newline :: (v.bytes ++ rest.bytes) := by
      rw [hbuf, hf, frame, List.append_assoc, List.cons_append]
    have hbody :
        (buf.substr ((decimal v.bytes.length).length + 1) v.bytes.length).bytes = v.bytes := by
      rw [ByteString.bytes_substr, hbuf', List.drop_append, List.drop_of_length_le (by omega),
        List.nil_append, Nat.add_sub_cancel_left, List.drop_succ_cons, List.drop_zero,
        List.take_left]
    rw [deserialize_header buf hbuf' hfit, if_neg (by rw [List.length_append]; omega)]
    congr 1
    exact ByteString.ext hbody
  · -- A strict prefix: cut inside the header, or inside the body.
    rw [hf] at hp hne
    rcases prefix_frame hp hne with hhead | ⟨body, hbody, hlt⟩
    · have hfind : p.bytes.idxOf? newline = none := by
        rw [List.idxOf?_eq_none_iff]
        exact fun hmem => newline_notMem_decimal _ (hhead.subset hmem)
      exact ⟨"missing length header", by simp only [deserialize, hfind]⟩
    · exact ⟨"incomplete body", by rw [deserialize_header p hbody hfit, if_pos hlt]⟩

/-- `deserialize_serialize` for the body `"7\n"`, which looks like a header. -/
theorem deserialize_serialize_header_body :
    ∃ f, serialize ⟨[55, 10], by decide⟩ = some f ∧
      (∀ rest buf : ByteString, buf.bytes = f.bytes ++ rest.bytes →
        deserialize buf = .response ⟨[55, 10], by decide⟩) ∧
      ∀ p : ByteString, p.bytes <+: f.bytes → p.bytes ≠ f.bytes →
        ∃ message, deserialize p = .error message :=
  deserialize_serialize ⟨[55, 10], by decide⟩ (by simp [frame, decimal])

/-! ## Declared lengths -/

/-- The header of a buffer: the bytes before its first newline, read by `stoull`, with the index of
the newline. -/
def Declares (buf : ByteString) (pos n : ℕ) : Prop :=
  buf.bytes.idxOf? newline = some pos ∧ stoull (buf.bytes.take pos) = some n

/-- `deserialize` honours the declared length: a response is exactly the declared number of bytes
after the newline, and a header that declares more bytes than follow is an error. -/
def HonoursLength (buf : ByteString) : Prop :=
  (∀ r, deserialize buf = .response r →
      ∃ pos n, Declares buf pos n ∧ n = r.bytes.length ∧
        r.bytes = (buf.bytes.drop (pos + 1)).take n) ∧
    ∀ pos n, Declares buf pos n → (buf.bytes.drop (pos + 1)).length < n →
      ∃ message, deserialize buf = .error message

/-- The decoder on a buffer whose header declares `n` bytes. -/
theorem deserialize_of_declares {buf : ByteString} {pos n : ℕ} (h : Declares buf pos n) :
    deserialize buf =
      if sizeAdd (sizeAdd pos 1) n > buf.bytes.length then .error "incomplete body"
      else .response (buf.substr (pos + 1) n) := by
  obtain ⟨hfind, hparse⟩ := h
  simp only [deserialize, hfind, hparse]

/-- A response comes from a header that declares some length. -/
theorem declares_of_response {buf r : ByteString} (h : deserialize buf = .response r) :
    ∃ pos n, Declares buf pos n := by
  unfold deserialize at h
  split at h
  · exact absurd h (by simp)
  · rename_i pos hfind
    split at h
    · exact absurd h (by simp)
    · rename_i n hparse
      exact ⟨pos, n, hfind, hparse⟩

/-- The newline lies in the buffer, and the declared length is a 64-bit number. -/
theorem Declares.bounds {buf : ByteString} {pos n : ℕ} (h : Declares buf pos n) :
    pos < buf.bytes.length ∧ n < 2^64 := by
  obtain ⟨hpos, -⟩ := List.idxOf?_eq_some_iff.mp h.1
  exact ⟨hpos, stoull_lt h.2⟩

/-- A buffer declares at most one length. -/
theorem Declares.unique {buf : ByteString} {pos n pos' n' : ℕ} (h : Declares buf pos n)
    (h' : Declares buf pos' n') : pos = pos' ∧ n = n' := by
  have hpos : pos = pos' := Option.some.inj (h.1.symm.trans h'.1)
  refine ⟨hpos, ?_⟩
  have hparse := h'.2
  rw [← hpos] at hparse
  exact Option.some.inj (h.2.symm.trans hparse)

/-- When the sum wraps, the comparison lets the frame through: the decoder responds although fewer
bytes follow than the header declares. -/
theorem deserialize_of_wraps {buf : ByteString} {pos n : ℕ} (h : Declares buf pos n)
    (hwrap : 2^64 ≤ pos + 1 + n) :
    (buf.bytes.drop (pos + 1)).length < n ∧
      deserialize buf = .response (buf.substr (pos + 1) n) := by
  obtain ⟨hpos, hn⟩ := h.bounds
  have hsize := buf.size_lt
  have hsum : sizeAdd (sizeAdd pos 1) n = pos + 1 + n - 2^64 := by
    unfold sizeAdd
    omega
  refine ⟨by rw [List.length_drop]; omega, ?_⟩
  rw [deserialize_of_declares h, if_neg (by rw [hsum]; omega)]

/-- A sum that wraps makes a response out of a header that declares too much. -/
theorem not_honoursLength_of_wraps {buf : ByteString} {pos n : ℕ} (h : Declares buf pos n)
    (hwrap : 2^64 ≤ pos + 1 + n) : ¬ HonoursLength buf := by
  rintro ⟨-, herror⟩
  obtain ⟨hshort, hresponse⟩ := deserialize_of_wraps h hwrap
  obtain ⟨message, hmessage⟩ := herror pos n h hshort
  rw [hresponse] at hmessage
  exact absurd hmessage (by simp)

/-- When the sum does not wrap, the decoder responds exactly when the declared bytes follow. -/
theorem deserialize_of_not_wraps {buf : ByteString} {pos n : ℕ} (h : Declares buf pos n)
    (hfit : pos + 1 + n < 2^64) :
    deserialize buf = if (buf.bytes.drop (pos + 1)).length < n then .error "incomplete body"
      else .response (buf.substr (pos + 1) n) := by
  have hsum : sizeAdd (sizeAdd pos 1) n = pos + 1 + n := by
    rw [sizeAdd_eq (show pos + 1 < 2^64 by omega), sizeAdd_eq hfit]
  obtain ⟨hpos, -⟩ := h.bounds
  rw [deserialize_of_declares h, hsum, List.length_drop]
  by_cases hlt : buf.bytes.length - (pos + 1) < n
  · rw [if_pos (by omega), if_pos hlt]
  · rw [if_neg (by omega), if_neg hlt]

/-- The decoder honours the declared length of a buffer exactly when the offset of the declared
frame's end, which it compares with the size of the buffer, does not wrap. -/
theorem honoursLength_iff (buf : ByteString) :
    HonoursLength buf ↔ ∀ pos n, Declares buf pos n → pos + 1 + n < 2^64 := by
  constructor
  · intro hall pos n h
    by_contra hwrap
    exact not_honoursLength_of_wraps h (not_lt.mp hwrap) hall
  · intro hfit
    refine ⟨fun r hr => ?_, fun pos n h hshort => ?_⟩
    · obtain ⟨pos, n, h⟩ := declares_of_response hr
      rw [deserialize_of_not_wraps h (hfit pos n h)] at hr
      split_ifs at hr with hlt
      have hbytes : r.bytes = (buf.bytes.drop (pos + 1)).take n := by
        rw [← Result.response.inj hr, ByteString.bytes_substr]
      refine ⟨pos, n, h, ?_, hbytes⟩
      rw [hbytes, List.length_take]
      omega
    · exact ⟨"incomplete body", by rw [deserialize_of_not_wraps h (hfit pos n h), if_pos hshort]⟩

/-- The header `"18446744073709551615\n"` declares `2^64 - 1` bytes, none follow, and the decoder
responds with the empty body. -/
theorem not_honoursLength_max : ¬ ∀ buf : ByteString, HonoursLength buf := by
  intro hall
  have hdeclares : Declares ⟨decimal (2^64 - 1) ++ [newline], by decide +kernel⟩ 20 (2^64 - 1) :=
    ⟨by decide +kernel, by decide +kernel⟩
  exact not_honoursLength_of_wraps hdeclares (by decide) (hall _)

end LengthPrefixedCodec

end CxxPandora.Endpoint
