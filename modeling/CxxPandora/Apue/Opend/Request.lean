import CxxPandora.Lib.Fields
import CxxPandora.Lib.Tokens

/-!
# The request of a client, and its arguments

What `csopen` of `linux/apue.3e.exs/apue3/apue.3e/ipc2/open/open.c` sends, and what the server of
`ipc2/opend` makes of it: `buf_args` of `lib/bufargs.c`, `cli_args`, and `handle_request` up to the
call of `open`. A name is opened when it is one token, whatever white space is around it
(`handle_request_bytes`). With any other number of tokens the client is told about the usage. When
there are too many of them `buf_args` returns before `cli_args` is called, and the client gets the
message that was there last.

`handle_request` logs what a client has been told, and takes the message itself for the format of
`log_msg`, so that a `%` in it asks for an argument that is not there (`formatOk`).
-/

namespace CxxPandora.Apue.Opend

open Lib

/-! ## Texts -/

/-- The size of the buffers. -/
def MAXLINE : ℕ := 4096

/-- The room for arguments. -/
def MAXARGC : ℕ := 50

/-- The white space between arguments. -/
def WHITE (c : UInt8) : Bool := c == 32 || c == 9 || c == 10

/-- The bytes of a text. -/
def text (s : String) : List UInt8 := s.toList.map fun c => UInt8.ofNat c.toNat

/-- The request that the server knows. -/
def CL_OPEN : List UInt8 := text "open"

/-- `errmsg`: the string that its buffer holds. -/
structure Errmsg where
  /-- The characters. -/
  chars : List UInt8
  /-- They end at the NUL. -/
  zero_notMem : 0 ∉ chars
  /-- `snprintf` leaves two bytes of the buffer. -/
  length_le : chars.length ≤ MAXLINE - 2
  deriving DecidableEq

/-- `snprintf(errmsg, MAXLINE-1, …)`. -/
def Errmsg.snprintf (s : List UInt8) : Errmsg where
  chars := (cstr s).take (MAXLINE - 2)
  zero_notMem h := zero_notMem_cstr s (List.mem_of_mem_take h)
  length_le := List.length_take_le _ _

/-- The message before there is one. -/
def Errmsg.empty : Errmsg := .snprintf []

/-- The message of `cli_args`. -/
def Errmsg.usage : Errmsg where
  chars := text "usage: <pathname> <oflag>\n"
  zero_notMem := by decide
  length_le := by decide

/-- Whether what comes in a format, behind a `%` or not, needs no argument. -/
def formatFrom : Bool → List UInt8 → Bool
  | percent, [] => !percent
  | false, c :: s => formatFrom (c == 37) s
  | true, c :: s => c == 37 && formatFrom false s

/-- Whether a text may be a format without arguments: `%%` is the only conversion in it. -/
def formatOk (s : List UInt8) : Bool := formatFrom false s

/-- The message about a request that does not end with a NUL. -/
def Errmsg.notTerminated (uid : ℕ) (buf : List UInt8) : Errmsg :=
  .snprintf (text "request from uid " ++ decimal uid ++ text " not null terminated: " ++
    padLeft buf.length (cstr buf) ++ text "\n")

/-- The message about a file that cannot be opened, with the text of `strerror`. -/
def Errmsg.cantOpen (pathname : List UInt8) (strerror : CString) : Errmsg :=
  .snprintf (text "can't open " ++ pathname ++ text ": " ++ strerror.chars ++ text "\n")

/-! ## The client's side -/

/-- The arguments of `csopen`. -/
structure Request where
  name : CString
  oflag : ℤ
  deriving DecidableEq

/-- What `writev` sends. -/
def Request.bytes (r : Request) : List UInt8 :=
  (CL_OPEN ++ [32]) ++ r.name.chars ++ (32 :: decimalInt r.oflag ++ [0])

/-- The flags fit the buffer that they are printed to, and the request fits that of the server. -/
def Request.Fits (r : Request) : Prop :=
  -10^9 < r.oflag ∧ r.oflag < 2^31 ∧ r.bytes.length ≤ MAXLINE

/-- Whether a request fits. -/
instance instDecidableFits (r : Request) : Decidable r.Fits :=
  inferInstanceAs (Decidable (-10^9 < r.oflag ∧ r.oflag < 2^31 ∧ r.bytes.length ≤ MAXLINE))

/-! ## The server's side -/

/-- The loop of `buf_args`, with room for so many arguments more. -/
def argvFrom : ℕ → List UInt8 → Option (List (List UInt8))
  | 0, s => if (strtok WHITE s).isNone then some [] else none
  | room + 1, s =>
    match strtok WHITE s with
    | none => some []
    | some (arg, s') => (argvFrom room s').map (arg :: ·)

/-- `buf_args`: the arguments that `optfunc` is called with, or `none` when it returns without the
call. The first argument starts where the buffer does. -/
def buf_args (buf : List UInt8) : Option (List (List UInt8)) :=
  match strtok WHITE (cstr buf) with
  | none => none
  | some (arg, s) =>
    (argvFrom (MAXARGC - 2) s).map (((cstr buf).takeWhile WHITE ++ arg) :: ·)

/-- `cli_args`: the pathname and the flags, or `none` when the client is told about the usage. -/
def cli_args : List (List UInt8) → Option (List UInt8 × ℤ)
  | [arg, pathname, oflag] => if arg = CL_OPEN then some (pathname, atol oflag) else none
  | _ => none

/-- What `handle_request` does next: it tells the client about an error, and then logs the message
or does not, or it opens a file. -/
inductive Handled
  | send_err (errmsg : Errmsg) (logged : Bool)
  | open_ (pathname : List UInt8) (oflag : ℤ)
  deriving DecidableEq

/-- `handle_request`, up to the call of `open`. -/
def handle_request (errmsg : Errmsg) (buf : List UInt8) (uid : ℕ) : Handled :=
  if buf.getLast? ≠ some 0 then .send_err (.notTerminated uid buf) false
  else
    match buf_args buf with
    | none => .send_err errmsg true
    | some argv =>
      match cli_args argv with
      | none => .send_err .usage true
      | some (pathname, oflag) => .open_ pathname oflag

/-! ## What a request means -/

/-- What a request asks for: a name that is one token is opened. -/
def Request.meaning (errmsg : Errmsg) (r : Request) : Handled :=
  match tokens WHITE r.name.chars with
  | [pathname] => .open_ pathname r.oflag
  | ws => .send_err (if ws.length + 2 < MAXARGC then .usage else errmsg) true

variable {r : Request} {s : List UInt8}

/-- A text without `%` may be a format. -/
theorem formatOk_of_notMem (h : 37 ∉ s) : formatOk s = true := by
  unfold formatOk
  induction s with
  | nil => rfl
  | cons c s ih =>
    rw [List.mem_cons, not_or] at h
    have hc : (c == 37) = false := beq_eq_false_iff_ne.mpr (Ne.symm h.1)
    rw [formatFrom, hc]
    exact ih h.2

/-- `snprintf` makes no `%` of a text without one. -/
theorem percent_notMem_snprintf (h : 37 ∉ s) : 37 ∉ (Errmsg.snprintf s).chars := fun hmem =>
  h (List.takeWhile_subset _ (List.mem_of_mem_take hmem))

/-- The message about a file has a `%` only from its name or the text of the error. -/
theorem percent_notMem_cantOpen {pathname : List UInt8} {strerror : CString} (hname : 37 ∉ pathname)
    (hstrerror : 37 ∉ strerror.chars) : 37 ∉ (Errmsg.cantOpen pathname strerror).chars := by
  refine percent_notMem_snprintf ?_
  simp only [List.mem_append, not_or]
  exact ⟨⟨⟨⟨by decide, hname⟩, by decide⟩, hstrerror⟩, by decide⟩

/-- What a request leaves to tell has a `%` only if the message before it has one. -/
theorem Request.percent_notMem {errmsg errmsg' : Errmsg} {logged : Bool} (h : 37 ∉ errmsg.chars)
    (hmeaning : r.meaning errmsg = .send_err errmsg' logged) : 37 ∉ errmsg'.chars := by
  unfold Request.meaning at hmeaning
  split at hmeaning
  · exact Handled.noConfusion hmeaning
  · obtain ⟨rfl, -⟩ := Handled.send_err.inj hmeaning
    split_ifs
    · decide
    · exact h

/-- The loop finds the tokens, if there is room for them. -/
theorem argvFrom_eq (room : ℕ) (s : List UInt8) :
    argvFrom room s = if (tokens WHITE s).length ≤ room then some (tokens WHITE s) else none := by
  induction room generalizing s with
  | zero =>
    cases hs : strtok WHITE s with
    | none =>
      rw [argvFrom, hs, tokens_of_strtok_none hs]
      rfl
    | some p =>
      rw [argvFrom, hs, tokens_of_strtok hs]
      rfl
  | succ room ih =>
    cases hs : strtok WHITE s with
    | none =>
      simp only [argvFrom, hs]
      rw [tokens_of_strtok_none hs]
      rfl
    | some p =>
      simp only [argvFrom, hs]
      rw [tokens_of_strtok hs, ih, List.length_cons]
      split_ifs
      · rfl
      · omega
      · omega
      · rfl

/-- The arguments in a buffer that does not start with white space. -/
theorem buf_args_eq {c : UInt8} {t : List UInt8} (hs : cstr s = c :: t) (hc : WHITE c = false) :
    buf_args s = if (tokens WHITE (c :: t)).length < MAXARGC then some (tokens WHITE (c :: t))
      else none := by
  have hwhite : (c :: t).takeWhile WHITE = [] :=
    List.takeWhile_cons_of_neg (by rw [hc]; exact Bool.false_ne_true)
  cases hfirst : strtok WHITE (c :: t) with
  | none => simp [strtok, hc] at hfirst
  | some p =>
    simp only [buf_args, hs, hfirst, hwhite, List.nil_append]
    rw [argvFrom_eq, tokens_of_strtok hfirst, List.length_cons]
    unfold MAXARGC
    split_ifs
    · rfl
    · omega
    · omega
    · rfl

/-- The line of a request, without the NUL that ends it. -/
theorem Request.bytes_eq (r : Request) :
    r.bytes = (CL_OPEN ++ 32 :: (r.name.chars ++ 32 :: decimalInt r.oflag)) ++ [0] := by
  unfold Request.bytes
  simp

/-- No NUL comes before that. -/
theorem Request.zero_notMem (r : Request) :
    0 ∉ CL_OPEN ++ 32 :: (r.name.chars ++ 32 :: decimalInt r.oflag) := by
  have hnum : 0 ∉ decimalInt r.oflag := fun h => by
    rcases isDigit_of_mem_decimalInt h with h | h <;> exact absurd h (by decide)
  have hname := r.name.zero_notMem
  simp only [List.mem_append, List.mem_cons, not_or]
  exact ⟨by decide, by decide, hname, by decide, hnum⟩

/-- A numeral is one token. -/
theorem tokens_decimalInt (z : ℤ) : tokens WHITE (decimalInt z) = [decimalInt z] := by
  refine tokens_eq_singleton (fun c hc => ?_) (decimalInt_ne_nil z)
  by_contra hwhite
  rw [Bool.not_eq_false] at hwhite
  unfold WHITE at hwhite
  simp only [Bool.or_eq_true, beq_iff_eq] at hwhite
  rcases isDigit_of_mem_decimalInt hc with h | h
  · rcases hwhite with (h' | h') | h' <;> exact absurd (h.symm.trans h') (by decide)
  · rcases hwhite with (rfl | rfl) | rfl <;> exact absurd h (by decide)

/-- The tokens of a request: the name counts by its own tokens. -/
theorem Request.tokens_line (r : Request) :
    tokens WHITE (CL_OPEN ++ 32 :: (r.name.chars ++ 32 :: decimalInt r.oflag)) =
      CL_OPEN :: (tokens WHITE r.name.chars ++ [decimalInt r.oflag]) := by
  rw [tokens_append_cons _ _ (by decide), tokens_append_cons _ _ (by decide), tokens_decimalInt]
  rfl

/-- The server makes of a request what it means. -/
theorem handle_request_bytes (errmsg : Errmsg) (r : Request) (uid : ℕ) :
    handle_request errmsg r.bytes uid = r.meaning errmsg := by
  have hlast : r.bytes.getLast? = some 0 := by rw [r.bytes_eq, List.getLast?_concat]
  have hcstr : cstr r.bytes = CL_OPEN ++ 32 :: (r.name.chars ++ 32 :: decimalInt r.oflag) := by
    rw [r.bytes_eq, cstr_append_zero, cstr_eq_self r.zero_notMem]
  have hargs := buf_args_eq (s := r.bytes) (c := 111) hcstr (by decide)
  have htokens := r.tokens_line
  unfold handle_request
  rw [if_neg (not_not.mpr hlast), hargs]
  change tokens WHITE (111 :: _) = _ at htokens
  rw [htokens]
  unfold Request.meaning
  cases hws : tokens WHITE r.name.chars with
  | nil => rfl
  | cons w ws =>
    cases ws with
    | nil =>
      have hflag : atol (decimalInt r.oflag) = r.oflag := atol_decimalInt r.oflag
      simp [cli_args, MAXARGC, hflag]
    | cons w' ws =>
      have hlen : (CL_OPEN :: ((w :: w' :: ws) ++ [decimalInt r.oflag])).length =
          (w :: w' :: ws).length + 2 := by simp
      rw [hlen]
      by_cases hroom : (w :: w' :: ws).length + 2 < MAXARGC
      · rw [if_pos hroom]
        have hcli : cli_args (CL_OPEN :: ((w :: w' :: ws) ++ [decimalInt r.oflag])) = none := by
          cases ws <;> rfl
        simp only [hcli, if_pos hroom]
      · simp only [if_neg hroom]

end CxxPandora.Apue.Opend
