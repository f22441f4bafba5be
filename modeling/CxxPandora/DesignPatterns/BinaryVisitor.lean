import Mathlib.Data.List.Basic

/-!
# Binary serialization with a visitor

`BinarySerializeVisitor` and `BinaryDeserializeVisitor` of
`books/hands-on-design-patterns/static_serialize_visitor.cpp`. Both visitors go over the members of
a value with the same `accept` functions. One stores every `double` that it comes to at the start of
what is left of the buffer, and the other loads one there. `serialize_spec` says when a pack of
values fits into a buffer, and that what has been stored is loaded again.
-/

namespace CxxPandora.DesignPatterns

/-! ## Values -/

/-- A `double`: eight bytes. -/
structure Double where
  /-- The bytes in memory. -/
  bytes : List UInt8
  /-- Their number: `sizeof(double)`. -/
  length_bytes : bytes.length = 8

/-- The types of values. -/
inductive Shape
  | double
  | Point
  | Circle
  | Line
  | Intersection (G1 G2 : Shape)

/-- The values of a type. -/
inductive Geometry : Shape → Type
  | double (x : Double) : Geometry .double
  | Point (x_ y_ : Double) : Geometry .Point
  | Circle (c_ : Geometry .Point) (r_ : Double) : Geometry .Circle
  | Line (p1_ p2_ : Geometry .Point) : Geometry .Line
  | Intersection {G1 G2 : Shape} (g1_ : Geometry G1) (g2_ : Geometry G2) :
      Geometry (.Intersection G1 G2)

/-- The arguments of a call, by their types: a pack of at least one value. -/
inductive Pack : List Shape → Type
  | one {s : Shape} (t : Geometry s) : Pack [s]
  | cons {s : Shape} {ss : List Shape} (t : Geometry s) (u : Pack ss) : Pack (s :: ss)

/-- The `double`s of a value, in the order of its members. -/
def Geometry.doubles : {s : Shape} → Geometry s → List Double
  | _, .double x => [x]
  | _, .Point x_ y_ => [x_, y_]
  | _, .Circle c_ r_ => c_.doubles ++ [r_]
  | _, .Line p1_ p2_ => p1_.doubles ++ p2_.doubles
  | _, .Intersection g1_ g2_ => g1_.doubles ++ g2_.doubles

/-- The `double`s of a pack. -/
def Pack.doubles : {ss : List Shape} → Pack ss → List Double
  | _, .one t => t.doubles
  | _, .cons t u => t.doubles ++ u.doubles

/-! ## Visitors -/

section Accept

variable {m : Type → Type} [Monad m] (v : Double → m Double)

/-- The visitor on a value that is passed by reference: its operator for `double` on a `double`, and
`accept` on everything else, which goes on to the members. -/
def Geometry.accept : {s : Shape} → Geometry s → m (Geometry s)
  | _, .double x => do
    let x ← v x
    return .double x
  | _, .Point x_ y_ => do
    let x_ ← v x_
    let y_ ← v y_
    return .Point x_ y_
  | _, .Circle c_ r_ => do
    let c_ ← c_.accept
    let r_ ← v r_
    return .Circle c_ r_
  | _, .Line p1_ p2_ => do
    let p1_ ← p1_.accept
    let p2_ ← p2_.accept
    return .Line p1_ p2_
  | _, .Intersection g1_ g2_ => do
    let g1_ ← g1_.accept
    let g2_ ← g2_.accept
    return .Intersection g1_ g2_

/-- `visitation`: the visitor on one argument after the other. -/
def Pack.visitation : {ss : List Shape} → Pack ss → m (Pack ss)
  | _, .one t => do
    let t ← t.accept v
    return .one t
  | _, .cons t u => do
    let t ← t.accept v
    let u ← u.visitation
    return .cons t u

end Accept

/-- What stops a visitor. -/
inductive Fault
  /-- An exception is thrown. -/
  | runtime_error (what : String)
  /-- `memcpy` goes out of the memory: the behaviour is undefined. -/
  | outOfBounds

/-- The state of a visitor. -/
structure Visitor where
  /-- The memory that the buffer is in. -/
  memory : List UInt8
  /-- The index of the byte that the pointer points to. -/
  buf_ : ℕ
  /-- The bytes that are left of the buffer. -/
  size_ : ℕ

/-- A visit may be stopped. The memory stays as it is then. -/
abbrev VisitM := ExceptT Fault (StateM Visitor)

/-- The check of the size, which both visitors make. -/
def checkSize : VisitM Unit := do
  let v ← get
  if v.size_ < 8 then throw (.runtime_error "Buffer overflow")

/-- Both visitors move on by a `double`. The size is large enough. -/
def advance : VisitM Unit := modify fun v => { v with buf_ := v.buf_ + 8, size_ := v.size_ - 8 }

/-- `memcpy(buf_, &x, sizeof(x))`. -/
def store (x : Double) : VisitM Unit := do
  let v ← get
  if v.memory.length < v.buf_ + 8 then throw .outOfBounds
  else set { v with memory := v.memory.take v.buf_ ++ x.bytes ++ v.memory.drop (v.buf_ + 8) }

/-- `memcpy(&x, buf_, sizeof(x))`. -/
def load : VisitM Double := do
  let v ← get
  if h : v.buf_ + 8 ≤ v.memory.length then
    return ⟨(v.memory.drop v.buf_).take 8, by rw [List.length_take, List.length_drop]; omega⟩
  else throw .outOfBounds

/-- `BinarySerializeVisitor` on a `double`, which stays as it is. -/
def serializeDouble (x : Double) : VisitM Double := do
  checkSize
  store x
  advance
  return x

/-- `BinaryDeserializeVisitor` on a `double`, whose old value is not looked at. -/
def deserializeDouble (_ : Double) : VisitM Double := do
  checkSize
  let x ← load
  advance
  return x

/-- `serialize` into the buffer at the start of a memory: what becomes of the memory, and whether
the call returns. -/
def serialize {ss : List Shape} (memory : List UInt8) (size : ℕ) (u : Pack ss) :
    Except Fault Unit × List UInt8 :=
  let (result, v) := (u.visitation serializeDouble).run.run ⟨memory, 0, size⟩
  (result.map fun _ => (), v.memory)

/-- `deserialize` from the buffer at the start of a memory: the values that the arguments get. -/
def deserialize {ss : List Shape} (memory : List UInt8) (size : ℕ) (w : Pack ss) :
    Except Fault (Pack ss) :=
  ((w.visitation deserializeDouble).run.run ⟨memory, 0, size⟩).1

/-! ## Storing -/

/-- A visitor whose buffer is the part `gap` of the memory. -/
def Visitor.inside (before gap beyond : List UInt8) : Visitor :=
  ⟨before ++ (gap ++ beyond), before.length, gap.length⟩

/-- The bytes of a sequence of `double`s. -/
def bytesOf (ds : List Double) : List UInt8 := ds.flatMap Double.bytes

/-- Their number. -/
theorem length_bytesOf (ds : List Double) : (bytesOf ds).length = 8 * ds.length := by
  induction ds with
  | nil => rfl
  | cons d ds ih =>
    unfold bytesOf at ih ⊢
    rw [List.flatMap_cons, List.length_append, ih, d.length_bytes, List.length_cons]
    omega

/-- The bytes of one sequence after another. -/
theorem bytesOf_append (ds ds' : List Double) : bytesOf (ds ++ ds') = bytesOf ds ++ bytesOf ds' :=
  List.flatMap_append

/-- The visit stores the sequence at the start of the buffer if that is large enough. It throws if
it is not, and it changes nothing outside of the buffer. -/
structure Serializes {α : Type} (visit : VisitM α) (a : α) (ds : List Double) : Prop where
  fits : ∀ before gap beyond, 8 * ds.length ≤ gap.length →
    visit.run.run (.inside before gap beyond) =
      (.ok a, .inside (before ++ bytesOf ds) (gap.drop (8 * ds.length)) beyond)
  throws : ∀ before gap beyond, gap.length < 8 * ds.length →
    ∃ v gap', visit.run.run (.inside before gap beyond) =
        (.error (.runtime_error "Buffer overflow"), v) ∧
      v.memory = before ++ (gap' ++ beyond) ∧ gap'.length = gap.length

/-- One visit after another, when the first one returns. -/
theorem run_bind_ok {α β : Type} {visit : VisitM α} {f : α → VisitM β} {v v' : Visitor} {a : α}
    (h : visit.run.run v = (.ok a, v')) : (visit >>= f).run.run v = (f a).run.run v' := by
  rw [ExceptT.run_bind, StateT.run_bind, h]
  rfl

/-- One visit after another, when the first one is stopped. -/
theorem run_bind_error {α β : Type} {visit : VisitM α} {f : α → VisitM β} {v v' : Visitor}
    {e : Fault} (h : visit.run.run v = (.error e, v')) :
    (visit >>= f).run.run v = (.error e, v') := by
  rw [ExceptT.run_bind, StateT.run_bind, h]
  rfl

/-- A visit that looks at its state first. -/
theorem run_get_bind {α : Type} (f : Visitor → VisitM α) (v : Visitor) :
    ((get : VisitM Visitor) >>= f).run.run v = (f v).run.run v := rfl

/-- The check of the size when a `double` fits. -/
theorem checkSize_run {v : Visitor} (h : ¬v.size_ < 8) : checkSize.run.run v = (.ok (), v) := by
  rw [checkSize, run_get_bind, if_neg h]
  rfl

/-- The check of the size when no `double` fits. -/
theorem checkSize_run_error {v : Visitor} (h : v.size_ < 8) :
    checkSize.run.run v = (.error (.runtime_error "Buffer overflow"), v) := by
  rw [checkSize, run_get_bind, if_pos h]
  rfl

/-- Storing inside the memory. -/
theorem store_run {v : Visitor} {x : Double} (h : ¬v.memory.length < v.buf_ + 8) :
    (store x).run.run v = (.ok (), { v with
      memory := v.memory.take v.buf_ ++ x.bytes ++ v.memory.drop (v.buf_ + 8) }) := by
  rw [store, run_get_bind, if_neg h]
  rfl

/-- Loading the bytes of a `double` from inside the memory. -/
theorem load_run {v : Visitor} {x : Double} (h : v.buf_ + 8 ≤ v.memory.length)
    (hx : (v.memory.drop v.buf_).take 8 = x.bytes) : load.run.run v = (.ok x, v) := by
  rw [load, run_get_bind, dif_pos h]
  obtain ⟨bytes, hbytes⟩ := x
  subst hx
  rfl

/-- Moving on by a `double`. -/
theorem advance_run (v : Visitor) :
    advance.run.run v = (.ok (), { v with buf_ := v.buf_ + 8, size_ := v.size_ - 8 }) := rfl

section Serializing

variable {α β : Type} {visit : VisitM α} {f : α → VisitM β} {a : α} {b : β} {ds ds' : List Double}

/-- A visit that does nothing stores nothing. -/
theorem Serializes.pure (a : α) : Serializes (pure a) a [] where
  fits before gap beyond _ := by
    rw [show bytesOf [] = [] from rfl, List.append_nil]
    rfl
  throws _ _ _ hlt := absurd hlt (Nat.not_lt_zero _)

/-- One visit after another stores one sequence after another. -/
theorem Serializes.bind (h : Serializes visit a ds) (h' : Serializes (f a) b ds') :
    Serializes (visit >>= f) b (ds ++ ds') where
  fits before gap beyond hle := by
    rw [List.length_append] at hle ⊢
    rw [run_bind_ok (h.fits before gap beyond (by omega)),
      h'.fits _ _ _ (by rw [List.length_drop]; omega), List.drop_drop, bytesOf_append,
      List.append_assoc, Nat.mul_add]
  throws before gap beyond hlt := by
    rw [List.length_append] at hlt
    by_cases hfits : 8 * ds.length ≤ gap.length
    · -- The first visit returns, and the second one throws.
      obtain ⟨v, gap', hrun, hmem, hlen⟩ :=
        h'.throws (before ++ bytesOf ds) (gap.drop (8 * ds.length)) beyond
          (by rw [List.length_drop]; omega)
      refine ⟨v, bytesOf ds ++ gap', ?_, ?_, ?_⟩
      · rw [run_bind_ok (h.fits before gap beyond hfits), hrun]
      · rw [hmem, List.append_assoc, List.append_assoc]
      · rw [List.length_append, length_bytesOf, hlen, List.length_drop]
        omega
    · obtain ⟨v, gap', hrun, hmem, hlen⟩ := h.throws before gap beyond (by omega)
      exact ⟨v, gap', run_bind_error hrun, hmem, hlen⟩

/-- The serializer stores a `double`. -/
theorem serializes_double (x : Double) : Serializes (serializeDouble x) x [x] where
  fits before gap beyond hle := by
    have hx := x.length_bytes
    have hsize : ¬gap.length < 8 := Nat.not_lt.mpr hle
    have hmem : ¬(before ++ (gap ++ beyond)).length < before.length + 8 := by
      rw [List.length_append, List.length_append]
      omega
    have hnew : (before ++ (gap ++ beyond)).take before.length ++ x.bytes ++
        (before ++ (gap ++ beyond)).drop (before.length + 8) =
        before ++ bytesOf [x] ++ (gap.drop 8 ++ beyond) := by
      rw [List.take_left, List.drop_append, List.drop_of_length_le (by omega), List.nil_append,
        Nat.add_sub_cancel_left, List.drop_append_of_le_length (by omega)]
      simp [bytesOf]
    have hbuf : before.length + 8 = (before ++ bytesOf [x]).length := by
      rw [List.length_append, length_bytesOf]
      rfl
    unfold serializeDouble
    rw [run_bind_ok (checkSize_run hsize), run_bind_ok (store_run hmem),
      run_bind_ok (advance_run _)]
    show (Except.ok x, Visitor.mk _ _ _) = (Except.ok x, Visitor.mk _ _ _)
    rw [List.length_drop]
    exact congrArg (Prod.mk _) (congrArg₂ (Visitor.mk · · (gap.length - 8)) hnew hbuf)
  throws before gap beyond hlt := by
    unfold serializeDouble
    exact ⟨_, gap, run_bind_error (checkSize_run_error hlt), rfl, rfl⟩

/-- The serializer stores the `double`s of a value. -/
theorem serializes_accept {s : Shape} (t : Geometry s) :
    Serializes (t.accept serializeDouble) t t.doubles := by
  induction t with
  | double x => exact (serializes_double x).bind (.pure _)
  | Point x_ y_ => exact (serializes_double x_).bind ((serializes_double y_).bind (.pure _))
  | Circle c_ r_ hc => exact hc.bind ((serializes_double r_).bind (.pure _))
  | Line p1_ p2_ h1 h2 =>
    rw [Geometry.doubles, ← List.append_nil p2_.doubles]
    exact h1.bind (h2.bind (.pure _))
  | Intersection g1_ g2_ h1 h2 =>
    rw [Geometry.doubles, ← List.append_nil g2_.doubles]
    exact h1.bind (h2.bind (.pure _))

/-- The serializer stores the `double`s of a pack. -/
theorem serializes_visitation {ss : List Shape} (u : Pack ss) :
    Serializes (u.visitation serializeDouble) u u.doubles := by
  induction u with
  | one t =>
    rw [Pack.doubles, ← List.append_nil t.doubles]
    exact (serializes_accept t).bind (.pure _)
  | cons t u ih =>
    rw [Pack.doubles, ← List.append_nil u.doubles]
    exact (serializes_accept t).bind (ih.bind (.pure _))

end Serializing

/-! ## Loading -/

/-- The visit loads a sequence that stands at the start of the buffer. -/
def Deserializes {α : Type} (visit : VisitM α) (a : α) (ds : List Double) : Prop :=
  ∀ before beyond size, 8 * ds.length ≤ size →
    visit.run.run ⟨before ++ (bytesOf ds ++ beyond), before.length, size⟩ =
      (.ok a, ⟨before ++ bytesOf ds ++ beyond, (before ++ bytesOf ds).length,
        size - 8 * ds.length⟩)

section Deserializing

variable {α β : Type} {visit : VisitM α} {f : α → VisitM β} {a : α} {b : β} {ds ds' : List Double}

/-- A visit that does nothing loads nothing. -/
theorem Deserializes.pure (a : α) : Deserializes (pure a) a [] := by
  intro before beyond size _
  rw [show bytesOf [] = [] from rfl, List.append_nil]
  rfl

/-- One visit after another loads one sequence after another. -/
theorem Deserializes.bind (h : Deserializes visit a ds) (h' : Deserializes (f a) b ds') :
    Deserializes (visit >>= f) b (ds ++ ds') := by
  intro before beyond size hle
  have hlen : 8 * (ds ++ ds').length = 8 * ds.length + 8 * ds'.length := by
    rw [List.length_append, Nat.mul_add]
  rw [hlen] at hle ⊢
  rw [bytesOf_append, List.append_assoc (bytesOf ds),
    run_bind_ok (h before (bytesOf ds' ++ beyond) size (by omega)), h' _ _ _ (by omega),
    Nat.sub_sub, List.append_assoc before (bytesOf ds) (bytesOf ds')]

/-- The deserializer loads a `double`. -/
theorem deserializes_double (y x : Double) : Deserializes (deserializeDouble y) x [x] := by
  intro before beyond size hle
  have hx := x.length_bytes
  have hbytes : bytesOf [x] = x.bytes := List.append_nil x.bytes
  have hsize : ¬size < 8 := Nat.not_lt.mpr hle
  have hmem : before.length + 8 ≤ (before ++ (bytesOf [x] ++ beyond)).length := by
    rw [List.length_append, List.length_append, hbytes]
    omega
  have hload : ((before ++ (bytesOf [x] ++ beyond)).drop before.length).take 8 = x.bytes := by
    rw [List.drop_left, hbytes, ← hx, List.take_left]
  unfold deserializeDouble
  rw [run_bind_ok (checkSize_run hsize), run_bind_ok (load_run hmem hload),
    run_bind_ok (advance_run _)]
  show (Except.ok x, Visitor.mk _ _ _) = (Except.ok x, Visitor.mk _ _ _)
  rw [List.append_assoc, List.length_append, hbytes, hx]
  rfl

/-- The deserializer loads a value, whatever was there before. -/
theorem deserializes_accept {s : Shape} (w t : Geometry s) :
    Deserializes (w.accept deserializeDouble) t t.doubles := by
  induction t with
  | double x =>
    cases w
    exact (deserializes_double _ x).bind (.pure _)
  | Point x_ y_ =>
    cases w
    exact (deserializes_double _ x_).bind ((deserializes_double _ y_).bind (.pure _))
  | Circle c_ r_ hc =>
    cases w
    exact (hc _).bind ((deserializes_double _ r_).bind (.pure _))
  | Line p1_ p2_ h1 h2 =>
    cases w
    rw [Geometry.doubles, ← List.append_nil p2_.doubles]
    exact (h1 _).bind ((h2 _).bind (.pure _))
  | Intersection g1_ g2_ h1 h2 =>
    cases w
    rw [Geometry.doubles, ← List.append_nil g2_.doubles]
    exact (h1 _).bind ((h2 _).bind (.pure _))

/-- The deserializer loads a pack, whatever was there before. -/
theorem deserializes_visitation {ss : List Shape} (w u : Pack ss) :
    Deserializes (w.visitation deserializeDouble) u u.doubles := by
  induction u with
  | one t =>
    cases w with
    | one w =>
      rw [Pack.doubles, ← List.append_nil t.doubles]
      exact (deserializes_accept w t).bind (.pure _)
    | cons w ws => cases ws
  | cons t u ih =>
    cases w with
    | one w => cases u
    | cons w ws =>
      rw [Pack.doubles, ← List.append_nil u.doubles]
      exact (deserializes_accept w t).bind ((ih ws).bind (.pure _))

end Deserializing

/-! ## The round trip -/

/-- `serialize` of a pack of `N` numbers throws exactly when the buffer has less than `8 * N` bytes,
and never writes outside of it. When it returns, `deserialize` with arguments of the same types
returns as well and gives them the values of the pack. -/
theorem serialize_spec {ss : List Shape} (u : Pack ss) (buffer beyond : List UInt8) :
    ∃ buffer', buffer'.length = buffer.length ∧
      ((buffer.length < 8 * u.doubles.length ∧
        serialize (buffer ++ beyond) buffer.length u =
          (.error (.runtime_error "Buffer overflow"), buffer' ++ beyond)) ∨
      (8 * u.doubles.length ≤ buffer.length ∧
        serialize (buffer ++ beyond) buffer.length u = (.ok (), buffer' ++ beyond) ∧
        ∀ w : Pack ss, deserialize (buffer' ++ beyond) buffer.length w = .ok u)) := by
  have hstart : Visitor.mk (buffer ++ beyond) 0 buffer.length = .inside [] buffer beyond := rfl
  by_cases hlt : buffer.length < 8 * u.doubles.length
  · obtain ⟨v, buffer', hrun, hmem, hlen⟩ := (serializes_visitation u).throws [] buffer beyond hlt
    refine ⟨buffer', hlen, Or.inl ⟨hlt, ?_⟩⟩
    unfold serialize
    rw [hstart, hrun, ← show v.memory = buffer' ++ beyond from hmem]
    rfl
  · have hle : 8 * u.doubles.length ≤ buffer.length := Nat.le_of_not_lt hlt
    have hrun := (serializes_visitation u).fits [] buffer beyond hle
    refine ⟨bytesOf u.doubles ++ buffer.drop (8 * u.doubles.length), ?_,
      Or.inr ⟨hle, ?_, fun w => ?_⟩⟩
    · rw [List.length_append, length_bytesOf, List.length_drop]
      omega
    · unfold serialize
      rw [hstart, hrun, List.append_assoc]
      rfl
    · have hload := deserializes_visitation w u [] (buffer.drop (8 * u.doubles.length) ++ beyond)
        buffer.length hle
      unfold deserialize
      rw [List.append_assoc]
      exact congrArg Prod.fst hload

end CxxPandora.DesignPatterns
