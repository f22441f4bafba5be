import CxxPandora.Lib.Extraction

/-!
# Persons written to a stream and read back

`operator<<` and `operator>>` of `Person` in `base/stream/vector_to_file.cpp`. The fields are
written with nothing between them, so the age that is read takes the digits of the money as well,
the money takes a part of the name, and the name goes on to the end of the stream.
`roundTrips_iff_eq_nil` says that only the empty sequence is read back.
-/

namespace CxxPandora.Stream

open Lib

/-- The `double`s, as far as they are written and read here: the one of a natural number, and the
one that a field denotes. -/
structure Doubles (δ : Type) where
  ofNat : ℕ → δ
  strtod : List UInt8 → Option δ

/-- A person. -/
structure Person (δ : Type) where
  age_ : ℤ
  money_ : δ
  name_ : List UInt8

/-- A person who is written: the age is an `int`, the money is an integer that is printed exactly,
and the name has no white space. -/
structure Printable where
  age_ : ℤ
  money_ : ℕ
  name_ : List UInt8
  age_int : intMin ≤ age_ ∧ age_ ≤ intMax
  money_lt : money_ < 10^6
  name_ne_nil : name_ ≠ []
  name_noSpace : ∀ c ∈ name_, isSpace c = false

/-- The person. -/
def Printable.toPerson {δ : Type} (dbl : Doubles δ) (p : Printable) : Person δ :=
  ⟨p.age_, dbl.ofNat p.money_, p.name_⟩

/-! ## The operators -/

/-- `out << n` of an `int`. -/
def printInt (n : ℤ) : List UInt8 := if n < 0 then 45 :: decimal n.natAbs else decimal n.natAbs

/-- `operator<<`. -/
def Printable.print (p : Printable) : List UInt8 := printInt p.age_ ++ decimal p.money_ ++ p.name_

/-- One person after another. -/
def printAll (ps : List Printable) : List UInt8 := ps.flatMap Printable.print

section Reading

variable {δ : Type} (dbl : Doubles δ)

/-- `operator>>`. -/
def extractPerson (s : TextStream) : Option (Person δ × TextStream) := do
  let (age_, s) ← s.extractInt
  let (money_, s) ← s.extractDouble dbl.strtod
  let (name_, s) ← s.extractString
  some (⟨age_, money_, name_⟩, s)

variable {dbl} {s s' : TextStream} {p : Person δ}

/-- The three reads of a person. -/
theorem extractPerson_eq_some (h : extractPerson dbl s = some (p, s')) :
    ∃ s₁ s₂, s.extractInt = some (p.age_, s₁) ∧
      s₁.extractDouble dbl.strtod = some (p.money_, s₂) ∧
      s₂.extractString = some (p.name_, s') := by
  obtain ⟨⟨age_, s₁⟩, hage, h⟩ := Option.bind_eq_some_iff.mp h
  obtain ⟨⟨money_, s₂⟩, hmoney, h⟩ := Option.bind_eq_some_iff.mp h
  obtain ⟨⟨name_, s₃⟩, hname, h⟩ := Option.bind_eq_some_iff.mp h
  obtain ⟨rfl, rfl⟩ := Prod.mk.inj (Option.some.inj h)
  exact ⟨s₁, s₂, hage, hmoney, hname⟩

/-- Reading a person leaves less than there was. -/
theorem length_extractPerson_lt (h : extractPerson dbl s = some (p, s')) :
    s'.rest.length < s.rest.length := by
  obtain ⟨s₁, s₂, hage, hmoney, hname⟩ := extractPerson_eq_some h
  have h₁ := TextStream.length_extractInt_le hage
  have h₂ := TextStream.length_extractDouble_lt hmoney
  have h₃ := TextStream.length_extractString_le hname
  omega

variable (dbl)

/-- `std::istream_iterator<Person>`: the persons up to the first extraction that fails. -/
def extractAll (s : TextStream) : List (Person δ) :=
  match _h : extractPerson dbl s with
  | none => []
  | some (p, s') => p :: extractAll s'
termination_by s.rest.length
decreasing_by exact length_extractPerson_lt _h

/-- What is written is read back. -/
def RoundTrips (ps : List Printable) : Prop :=
  extractAll dbl ⟨printAll ps, false⟩ = ps.map (Printable.toPerson dbl)

end Reading

/-! ## What is written -/

/-- An `int` is written without white space. -/
theorem isSpace_of_mem_printInt {n : ℤ} {c : UInt8} (h : c ∈ printInt n) : isSpace c = false := by
  have hdecimal : ∀ d ∈ decimal n.natAbs, isSpace d = false := fun d hd =>
    isSpace_of_isDigit (isDigit_of_mem_decimal hd)
  unfold printInt at h
  split_ifs at h with hn
  · rcases List.mem_cons.mp h with rfl | h
    · decide
    · exact hdecimal c h
  · exact hdecimal c h

/-- No white space is written. -/
theorem isSpace_of_mem_printAll {ps : List Printable} {c : UInt8} (h : c ∈ printAll ps) :
    isSpace c = false := by
  obtain ⟨p, -, hc⟩ := List.mem_flatMap.mp h
  rcases List.mem_append.mp hc with hc | hc
  · rcases List.mem_append.mp hc with hc | hc
    · exact isSpace_of_mem_printInt hc
    · exact isSpace_of_isDigit (isDigit_of_mem_decimal hc)
  · exact p.name_noSpace c hc

/-- What follows the sign of an `int`. -/
theorem splitSign_printInt (n : ℤ) (text : List UInt8) :
    (splitSign (printInt n ++ text)).2 = decimal n.natAbs ++ text := by
  unfold printInt
  split_ifs with hn
  · rfl
  · cases hd : decimal n.natAbs with
    | nil => exact absurd hd (decimal_ne_nil _)
    | cons c ds =>
      have hc : isDigit c = true := isDigit_of_mem_decimal (hd ▸ List.mem_cons_self)
      rw [List.cons_append, splitSign_of_isDigit hc]

/-- A numeral is dropped with the digits that follow it. -/
theorem dropWhile_decimal_append (n : ℕ) (text : List UInt8) :
    (decimal n ++ text).dropWhile isDigit = text.dropWhile isDigit :=
  List.dropWhile_append_of_pos fun _ hc => isDigit_of_mem_decimal hc

/-! ## What is read -/

section Reading

variable {δ : Type} {dbl : Doubles δ}

/-- The age that is read takes the digits of the money as well. -/
theorem extractInt_printAll {p : Printable} {ps : List Printable} {n : ℤ} {s : TextStream}
    (h : TextStream.extractInt ⟨printAll (p :: ps), false⟩ = some (n, s)) :
    s.rest = (p.name_ ++ printAll ps).dropWhile isDigit := by
  obtain ⟨text, htext, rfl⟩ := TextStream.extractInt_eq_some h
  have hall : text = printInt p.age_ ++ (decimal p.money_ ++ (p.name_ ++ printAll ps)) := by
    rw [TextStream.sentry_of_noSpace (fun c hc => isSpace_of_mem_printAll hc) htext]
    show printAll (p :: ps) = _
    rw [printAll, List.flatMap_cons, Printable.print, List.append_assoc, List.append_assoc]
    rfl
  show (splitSign text).2.dropWhile isDigit = _
  rw [hall, splitSign_printInt, dropWhile_decimal_append, dropWhile_decimal_append]

/-- The name that is read goes on to the end of the stream, but the money has taken a part of it. -/
theorem extractPerson_printAll {p : Printable} {ps : List Printable} {q : Person δ} {s : TextStream}
    (h : extractPerson dbl ⟨printAll (p :: ps), false⟩ = some (q, s)) :
    q.name_.length < (p.name_ ++ printAll ps).length ∧ s.eofbit = true := by
  obtain ⟨s₁, s₂, hage, hmoney, hname⟩ := extractPerson_eq_some h
  have hrest := extractInt_printAll hage
  have hsuffix : s₁.rest <:+ p.name_ ++ printAll ps := hrest ▸ List.dropWhile_suffix _
  have hspace : ∀ c ∈ s₁.rest, isSpace c = false := fun c hc => by
    rcases List.mem_append.mp (hsuffix.subset hc) with hc | hc
    · exact p.name_noSpace c hc
    · exact isSpace_of_mem_printAll hc
  have hspace' : ∀ c ∈ s₂.rest, isSpace c = false := fun c hc =>
    hspace c ((TextStream.extractDouble_suffix hspace hmoney).subset hc)
  obtain ⟨hq, heof⟩ := TextStream.extractString_of_noSpace hspace' hname
  refine ⟨?_, heof⟩
  rw [hq]
  exact Nat.lt_of_lt_of_le (TextStream.length_extractDouble_lt hmoney) hsuffix.length_le

/-- At most one person is read, with a name that is shorter than what follows the money. -/
theorem extractAll_printAll (dbl : Doubles δ) (p : Printable) (ps : List Printable) :
    extractAll dbl ⟨printAll (p :: ps), false⟩ = [] ∨
      ∃ q, extractAll dbl ⟨printAll (p :: ps), false⟩ = [q] ∧
        q.name_.length < (p.name_ ++ printAll ps).length := by
  rw [extractAll]
  split
  · exact Or.inl rfl
  · rename_i q s hq
    obtain ⟨hlt, heof⟩ := extractPerson_printAll hq
    have hnone : extractPerson dbl s = none := by
      unfold extractPerson TextStream.extractInt
      rw [TextStream.sentry_of_eofbit heof]
      rfl
    refine Or.inr ⟨q, ?_, hlt⟩
    rw [extractAll]
    split
    · rfl
    · rename_i h
      rw [hnone] at h
      cases h

/-- A sequence with a person is not read back. -/
theorem not_roundTrips_cons (p : Printable) (ps : List Printable) : ¬RoundTrips dbl (p :: ps) := by
  intro h
  unfold RoundTrips at h
  rcases extractAll_printAll dbl p ps with hnil | ⟨q, hq, hlt⟩
  · rw [hnil] at h
    cases h
  · rw [hq] at h
    obtain ⟨hqp, hps⟩ := List.cons.inj h
    -- The one person that is read has another name than the one that was written.
    obtain rfl := List.map_eq_nil_iff.mp hps.symm
    rw [hqp, printAll, List.flatMap_nil, List.append_nil] at hlt
    exact absurd hlt (Nat.lt_irrefl _)

end Reading

/-- Of all sequences, only the empty one is read back as it was written. -/
theorem roundTrips_iff_eq_nil {δ : Type} (dbl : Doubles δ) (ps : List Printable) :
    RoundTrips dbl ps ↔ ps = [] := by
  constructor
  · intro h
    cases ps with
    | nil => rfl
    | cons p ps => exact absurd h (not_roundTrips_cons p ps)
  · rintro rfl
    unfold RoundTrips
    rw [extractAll]
    rfl

/-- A person of age 5 with 7 in money: the text is `57bob`. -/
def bob : Printable where
  age_ := 5
  money_ := 7
  name_ := [98, 111, 98]
  age_int := by decide
  money_lt := by decide
  name_ne_nil := by decide
  name_noSpace := by
    rw [List.forall_mem_cons, List.forall_mem_cons, List.forall_mem_singleton]
    exact ⟨rfl, rfl, rfl⟩

/-- The text of one person is not read back, whatever the numbers denote. -/
theorem not_roundTrips_bob : ¬∃ (δ : Type) (dbl : Doubles δ), RoundTrips dbl [bob] := by
  rintro ⟨δ, dbl, h⟩
  exact not_roundTrips_cons bob [] h

end CxxPandora.Stream
