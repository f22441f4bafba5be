import CxxPandora.Lib.Bytes
import CxxPandora.Lib.Words

/-!
# Formatted input from a stream

`operator>>` of a C++ stream for an `int`, a `double` and a string, in the C locale. Each skips
white space and takes the longest field that its type allows. An operation that sets `failbit` is
`none`: whatever is extracted after that fails as well.
-/

namespace CxxPandora.Lib

/-- A stream without `failbit`. -/
structure TextStream where
  /-- The text that is still to be read. -/
  rest : List UInt8
  /-- Whether a read came to the end of the text. -/
  eofbit : Bool

namespace TextStream

/-- The stream after a read that stopped before `rest`: it has come to the end when nothing is
left. -/
def stoppedAt (rest : List UInt8) : TextStream := ⟨rest, rest.isEmpty⟩

/-- The sentry of an extraction: what follows the white space. It fails when the stream has come to
the end, before or now. -/
def sentry (s : TextStream) : Option (List UInt8) :=
  if s.eofbit ∨ s.rest.dropWhile isSpace = [] then none else some (s.rest.dropWhile isSpace)

/-- `operator>>` for an `int`: an optional sign and as many digits as there are. It fails without a
digit, and when the number is no `int`. -/
def extractInt (s : TextStream) : Option (ℤ × TextStream) := do
  let text ← s.sentry
  let (minus, text) := splitSign text
  let digits := text.takeWhile isDigit
  if digits = [] then none
  else
    let value ← checkInt (if minus then -digitsValue digits else digitsValue digits)
    some (value, stoppedAt (text.dropWhile isDigit))

/-- The longest field that a floating-point number allows from here on: digits, one point, and after
a digit one exponent, which may have a sign. -/
def floatField (sign digit point exponent : Bool) : List UInt8 → List UInt8
  | [] => []
  | c :: text =>
    if isDigit c then c :: floatField false true point exponent text
    -- A plus or a minus.
    else if sign ∧ (c = 43 ∨ c = 45) then c :: floatField false digit point exponent text
    -- A point.
    else if ¬point ∧ ¬exponent ∧ c = 46 then c :: floatField false digit true exponent text
    -- An `e` or an `E`.
    else if ¬exponent ∧ digit ∧ (c = 69 ∨ c = 101) then c :: floatField true digit point true text
    else []

/-- `operator>>` for a `double`: the field, and what `strtod` makes of it, if that takes all of it.
It fails on an empty field. -/
def extractDouble {δ : Type} (strtod : List UInt8 → Option δ) (s : TextStream) :
    Option (δ × TextStream) := do
  let text ← s.sentry
  let field := floatField true false false false text
  if field = [] then none
  else
    let value ← strtod field
    some (value, stoppedAt (text.drop field.length))

/-- `operator>>` for a string: everything up to the next white space. -/
def extractString (s : TextStream) : Option (List UInt8 × TextStream) := do
  let text ← s.sentry
  some (text.takeWhile (!isSpace ·), stoppedAt (text.dropWhile (!isSpace ·)))

section

variable {s s' : TextStream} {text : List UInt8}

/-- What a sentry that does not fail leaves. -/
theorem sentry_eq_some (h : s.sentry = some text) :
    s.eofbit = false ∧ text = s.rest.dropWhile isSpace ∧ text ≠ [] := by
  unfold sentry at h
  split_ifs at h with hbad
  rw [not_or] at hbad
  obtain rfl := Option.some.inj h
  exact ⟨Bool.eq_false_iff.mpr hbad.1, rfl, hbad.2⟩

/-- The sentry drops no more than there is. -/
theorem length_sentry_le (h : s.sentry = some text) : text.length ≤ s.rest.length := by
  rw [(sentry_eq_some h).2.1]
  exact List.length_dropWhile_le _ _

/-- The sentry of a text without white space leaves it all. -/
theorem sentry_of_noSpace (hspace : ∀ c ∈ s.rest, isSpace c = false) (h : s.sentry = some text) :
    text = s.rest := by
  rw [(sentry_eq_some h).2.1]
  cases hrest : s.rest with
  | nil => rfl
  | cons c cs =>
    have hc : isSpace c = false := hspace c (hrest ▸ List.mem_cons_self)
    rw [List.dropWhile_cons_of_neg (by rw [hc]; exact Bool.false_ne_true)]

/-- No extraction from a stream that has come to the end. -/
theorem sentry_of_eofbit (h : s.eofbit = true) : s.sentry = none := if_pos (Or.inl h)

/-- What follows a sign. -/
theorem splitSign_suffix (text : List UInt8) : (splitSign text).2 <:+ text := by
  unfold splitSign
  split
  · exact List.suffix_cons _ _
  · exact List.suffix_cons _ _
  · exact List.suffix_refl _

/-- An `int` is read up to the first byte that is no digit. -/
theorem extractInt_eq_some {n : ℤ} (h : s.extractInt = some (n, s')) :
    ∃ text, s.sentry = some text ∧ s' = stoppedAt ((splitSign text).2.dropWhile isDigit) := by
  obtain ⟨text, htext, h⟩ := Option.bind_eq_some_iff.mp h
  dsimp only at h
  by_cases hdigits : (splitSign text).2.takeWhile isDigit = []
  · rw [if_pos hdigits] at h
    exact absurd h (Option.some_ne_none _).symm
  · rw [if_neg hdigits] at h
    obtain ⟨value, -, h⟩ := Option.bind_eq_some_iff.mp h
    exact ⟨text, htext, ((Prod.mk.inj (Option.some.inj h)).2).symm⟩

/-- A `double` takes a part of the text that is not empty. -/
theorem extractDouble_eq_some {δ : Type} {strtod : List UInt8 → Option δ} {x : δ}
    (h : s.extractDouble strtod = some (x, s')) :
    ∃ text n, s.sentry = some text ∧ 0 < n ∧ s' = stoppedAt (text.drop n) := by
  obtain ⟨text, htext, h⟩ := Option.bind_eq_some_iff.mp h
  dsimp only at h
  split_ifs at h with hfield
  obtain ⟨value, -, h⟩ := Option.bind_eq_some_iff.mp h
  exact ⟨text, _, htext, List.length_pos_iff.mpr hfield, ((Prod.mk.inj (Option.some.inj h)).2).symm⟩

/-- A string is read up to the next white space. -/
theorem extractString_eq_some {name : List UInt8} (h : s.extractString = some (name, s')) :
    ∃ text, s.sentry = some text ∧ name = text.takeWhile (!isSpace ·) ∧
      s' = stoppedAt (text.dropWhile (!isSpace ·)) := by
  obtain ⟨text, htext, h⟩ := Option.bind_eq_some_iff.mp h
  obtain ⟨rfl, rfl⟩ := Prod.mk.inj (Option.some.inj h)
  exact ⟨text, htext, rfl, rfl⟩

/-- Reading an `int` leaves no more than there was. -/
theorem length_extractInt_le {n : ℤ} (h : s.extractInt = some (n, s')) :
    s'.rest.length ≤ s.rest.length := by
  obtain ⟨text, htext, rfl⟩ := extractInt_eq_some h
  have hdrop := List.length_dropWhile_le isDigit (splitSign text).2
  have hsign := (splitSign_suffix text).length_le
  have hsentry := length_sentry_le htext
  show ((splitSign text).2.dropWhile isDigit).length ≤ _
  omega

/-- Reading a `double` leaves less than there was. -/
theorem length_extractDouble_lt {δ : Type} {strtod : List UInt8 → Option δ} {x : δ}
    (h : s.extractDouble strtod = some (x, s')) : s'.rest.length < s.rest.length := by
  obtain ⟨text, n, htext, hn, rfl⟩ := extractDouble_eq_some h
  have hpos := List.length_pos_iff.mpr (sentry_eq_some htext).2.2
  have hsentry := length_sentry_le htext
  show (text.drop n).length < _
  rw [List.length_drop]
  omega

/-- Reading a string leaves no more than there was. -/
theorem length_extractString_le {name : List UInt8} (h : s.extractString = some (name, s')) :
    s'.rest.length ≤ s.rest.length := by
  obtain ⟨text, htext, -, rfl⟩ := extractString_eq_some h
  exact Nat.le_trans (List.length_dropWhile_le _ _) (length_sentry_le htext)

/-- Where reading a `double` stops in a text without white space. -/
theorem extractDouble_suffix {δ : Type} {strtod : List UInt8 → Option δ} {x : δ}
    (hspace : ∀ c ∈ s.rest, isSpace c = false) (h : s.extractDouble strtod = some (x, s')) :
    s'.rest <:+ s.rest := by
  obtain ⟨text, n, htext, -, rfl⟩ := extractDouble_eq_some h
  rw [← sentry_of_noSpace hspace htext]
  exact List.drop_suffix _ _

/-- A string is all that is left of a text without white space, and the stream comes to the end. -/
theorem extractString_of_noSpace {name : List UInt8} (hspace : ∀ c ∈ s.rest, isSpace c = false)
    (h : s.extractString = some (name, s')) : name = s.rest ∧ s'.eofbit = true := by
  obtain ⟨text, htext, rfl, rfl⟩ := extractString_eq_some h
  obtain rfl := sentry_of_noSpace hspace htext
  have hall : ∀ c ∈ s.rest, (!isSpace c) = true := fun c hc => by rw [hspace c hc]; rfl
  refine ⟨List.takeWhile_eq_self_iff.mpr hall, ?_⟩
  show (s.rest.dropWhile (!isSpace ·)).isEmpty = true
  rw [List.dropWhile_eq_nil_iff.mpr hall]
  rfl

end

end TextStream

end CxxPandora.Lib
