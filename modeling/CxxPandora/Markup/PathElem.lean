import CxxPandora.Lib.Bytes
import CxxPandora.Lib.Forest
import CxxPandora.Lib.Loops
import Mathlib.Logic.Equiv.List

/-!
# A text below a path of elements

`SetDataWithPathElem` and `GetDataWithPathElem` of `demos/markup/main.cpp`, over the document tree
and the cursor of `BlMarkup`. The writer nests elements as deep as the path, but its iterator stays
at the first name: every element above the last has that name (`setDataWithPathElem_cons`). The
reader follows the path (`enterPath_eq`), so that the two are inverse exactly when every name but
the last is the first name, the value has no NUL, and the counters can count the path
(`roundTrips_path_iff`).
-/

namespace CxxPandora.Markup

open Lib Forest

/-! ## Documents -/

/-- The first character of a name: a letter, an underscore, a colon, or a byte of a longer one. -/
def isNameStart (c : UInt8) : Bool :=
  65 ≤ c && c ≤ 90 || 97 ≤ c && c ≤ 122 || c == 95 || c == 58 || 128 ≤ c

/-- The name of an element. -/
def IsName : List UInt8 → Prop
  | [] => False
  | c :: s => isNameStart c = true ∧
      ∀ c ∈ s, (isNameStart c || 48 ≤ c && c ≤ 57 || c == 45 || c == 46) = true

instance : DecidablePred IsName
  | [] => instDecidableFalse
  | _ :: s => @instDecidableAnd _ _ _ (List.decidableBAll _ s)

/-- Names of elements. -/
abbrev Name := {s : List UInt8 // IsName s}

/-- Text that a C string can hold. -/
abbrev Text := {s : List UInt8 // 0 ∉ s}

/-- The text that a function gets of a `const char *`. -/
def Text.ofBytes (s : List UInt8) : Text := ⟨cstr s, zero_notMem_cstr s⟩

/-- No text. -/
def Text.empty : Text := ⟨[], List.not_mem_nil⟩

instance encodableUInt8 : Encodable UInt8 :=
  Encodable.ofLeftInverse UInt8.toNat UInt8.ofNat fun _ => UInt8.ofNat_toNat

/-- An element: its tag name, and the text before its children. -/
structure Elem where
  name : Name
  data : Text
deriving DecidableEq, Encodable

/-- No element has both text and children. -/
def Unmixed : Forest Elem → Prop
  | nil => True
  | cons e children next =>
      (e.data = Text.empty ∨ children = nil) ∧ Unmixed children ∧ Unmixed next

/-- The text of a document, and its parser. -/
structure MarkupText where
  getDoc : Forest Elem → List UInt8
  setDoc : List UInt8 → Option (Forest Elem)

/-- What is documented of them: the parser undoes the escaping, and finds the elements again. -/
structure Documented (text : MarkupText) : Prop where
  /-- A document of one root is read back. -/
  setDoc_getDoc : ∀ e children, Unmixed (cons e children nil) →
    text.setDoc (text.getDoc (cons e children nil)) = some (cons e children nil)

/-! ## The cursor -/

/-- `bl::BlMarkup`: a document, and the current position in it. -/
structure BlMarkup where
  doc : Forest Elem
  /-- The address of the parent; empty above the root. -/
  posParent : List ℕ
  /-- The element among the parent's children. -/
  pos : Option ℕ
  /-- The child among the element's children. -/
  posChild : Option ℕ

namespace BlMarkup

/-- A document, before its first element. -/
def ofDoc (doc : Forest Elem) : BlMarkup := ⟨doc, [], none, none⟩

/-- Where a leaf is added: after a position, or at the end. -/
def indexAfter (row : Forest Elem) : Option ℕ → ℕ
  | none => (labels row).length
  | some i => i + 1

/-- `AddElem`: an element after the current one, which becomes the current one. -/
def addElem (xml : BlMarkup) (szName : Name) (szData : Text) : BlMarkup :=
  let j := indexAfter (childrenAt xml.doc xml.posParent) xml.pos
  ⟨insertAt ⟨szName, szData⟩ j xml.posParent xml.doc, xml.posParent, some j, none⟩

/-- `AddChildElem`: an element below the current one, after the current child, which becomes the
current child. -/
def addChildElem (xml : BlMarkup) (szName : Name) (szData : Text) : BlMarkup :=
  match xml.pos with
  | none => xml
  | some i =>
    let addr := xml.posParent ++ [i]
    let j := indexAfter (childrenAt xml.doc addr) xml.posChild
    { xml with doc := insertAt ⟨szName, szData⟩ j addr xml.doc, posChild := some j }

/-- `IntoElem`: the current element becomes the parent, and the current child the current element.
-/
def intoElem (xml : BlMarkup) : BlMarkup :=
  match xml.pos with
  | none => xml
  | some i => ⟨xml.doc, xml.posParent ++ [i], xml.posChild, none⟩

/-- `OutOfElem`: the parent becomes the current element, and the current element the current child.
-/
def outOfElem (xml : BlMarkup) : BlMarkup :=
  match xml.posParent.getLast? with
  | none => xml
  | some i => ⟨xml.doc, xml.posParent.dropLast, some i, xml.pos⟩

/-- `FindElem`: the next element of a name; `none` when there is none. -/
def findElem (xml : BlMarkup) (szName : Name) : Option BlMarkup :=
  (findFrom (fun e => decide (e.name = szName)) ((xml.pos.map (· + 1)).getD 0)
    (childrenAt xml.doc xml.posParent)).map fun i => { xml with pos := some i, posChild := none }

/-- `GetData`: the text of the current element; none when it has children. -/
def getData (xml : BlMarkup) : List UInt8 :=
  match xml.pos.bind (tree? (childrenAt xml.doc xml.posParent)) with
  | some (e, nil) => e.data.val
  | _ => []

end BlMarkup

/-! ## Writing and reading -/

/-- `SetDataWithPathElem`: its result, and `res` at its end; `none` when its counter overflows. -/
def setDataWithPathElem (text : MarkupText) (path_item : List Name) (value res : List UInt8) :
    Option (Bool × List UInt8) :=
  match path_item with
  | [] => some (false, res)
  | [item] => some (true, text.getDoc ((BlMarkup.ofDoc nil).addElem item (Text.ofBytes value)).doc)
  | iter :: name :: names =>
    -- The iterator is not advanced.
    (forInt (path_item.length - 1)
      (fun _ xml => some (xml.addChildElem iter Text.empty).intoElem) 1
      ((BlMarkup.ofDoc nil).addElem iter Text.empty)).map fun xml =>
        let item := (name :: names).getLast (List.cons_ne_nil name names)
        (true, text.getDoc (xml.addChildElem item (Text.ofBytes value)).doc)

/-- The first loop of `GetDataWithPathElem`, from counter `i` on, over the names from there to the
last but one. Inside, `none` when a name is not found; outside, when the counter overflows. -/
def enterPath : ℕ → List Name → BlMarkup → Option (Option BlMarkup)
  | _, [], xml => some (some xml)
  | i, name :: names, xml =>
    match xml.findElem name with
    | none => some none
    | some xml => (checkInt ((i : ℤ) + 1)).bind fun _ => enterPath (i + 1) names xml.intoElem

/-- `GetDataWithPathElem`: its result, and `res` at its end; `none` when a counter overflows, or the
path has no last name. -/
def getDataWithPathElem (text : MarkupText) (xml_str : List UInt8) (path_item : List Name)
    (res : List UInt8) : Option (Bool × List UInt8) :=
  path_item.getLast?.bind fun item =>
    match text.setDoc xml_str with
    | none => some (false, res)
    | some doc =>
      (enterPath 0 path_item.dropLast (BlMarkup.ofDoc doc)).bind fun entered =>
        match entered.bind (·.findElem item) with
        | none => some (false, res)
        | some xml =>
          (forInt (path_item.length - 1) (fun _ xml => some xml.outOfElem) 0 xml).map fun _ =>
            (true, xml.getData)

/-- When the writer returns `true`, the reader returns `true` and the value. -/
def RoundTrips (text : MarkupText) (path_item : List Name) (value : List UInt8) : Prop :=
  ∀ doc r, ∃ b doc', setDataWithPathElem text path_item value doc = some (b, doc') ∧
    (b = true → getDataWithPathElem text doc' path_item r = some (true, value))

/-! ## What the writer builds -/

variable {text : MarkupText} {value : List UInt8}

/-- The row of one element, with a value and no children. -/
def leaf (item : Name) (value : List UInt8) : Forest Elem :=
  cons ⟨item, Text.ofBytes value⟩ nil nil

/-- Elements of one name, one below the other, and a leaf below the last. -/
def written (iter : Name) (k : ℕ) (item : Name) (value : List UInt8) : Forest Elem :=
  nested ⟨iter, Text.empty⟩ k (leaf item value)

/-- The first element, and the passes of the writer's loop so far: the cursor is at the last
element. -/
def chain (iter : Name) (k : ℕ) : BlMarkup where
  doc := nested ⟨iter, Text.empty⟩ (k + 1) nil
  posParent := down k
  pos := some 0
  posChild := none

/-- A child of the last element. -/
theorem addChildElem_chain (iter item : Name) (k : ℕ) (data : Text) :
    (chain iter k).addChildElem item data =
      { chain iter k with
        doc := nested ⟨iter, Text.empty⟩ (k + 1) (cons ⟨item, data⟩ nil nil)
        posChild := some 0 } := by
  have hrow : childrenAt (nested (⟨iter, Text.empty⟩ : Elem) (k + 1) nil) (down (k + 1)) = nil :=
    childrenAt_nested (k + 1) 0 nil
  simp only [BlMarkup.addChildElem, chain, ← down_succ, hrow, BlMarkup.indexAfter, labels,
    List.length_nil, insertAt_nested, Forest.insert]

/-- A pass of the writer's loop. -/
theorem intoElem_addChildElem_chain (iter : Name) (k : ℕ) :
    ((chain iter k).addChildElem iter Text.empty).intoElem = chain iter (k + 1) := by
  rw [addChildElem_chain, nested_cons]
  simp only [BlMarkup.intoElem, chain, down_succ]

/-- The writer's loop. -/
theorem forInt_chain (iter : Name) {n : ℕ} (hn : n + 1 < 2^31) :
    forInt (n + 1) (fun _ xml => some (BlMarkup.addChildElem xml iter Text.empty).intoElem) 1
      (chain iter 0) = some (chain iter n) := by
  have hloop : ∃ xml, forInt (n + 1)
      (fun _ xml => some (BlMarkup.addChildElem xml iter Text.empty).intoElem) 1 (chain iter 0) =
        some xml ∧ ∃ k, n + 1 = k + 1 ∧ xml = chain iter k := by
    -- Before the pass of counter `k + 1` there are `k + 1` elements.
    apply forInt_invariant (I := fun i xml => ∃ k, i = k + 1 ∧ xml = chain iter k) hn (by omega)
    · exact ⟨0, rfl, rfl⟩
    · rintro _ _ - ⟨k, rfl, rfl⟩
      exact ⟨_, rfl, k + 1, rfl, intoElem_addChildElem_chain iter k⟩
  obtain ⟨xml, hxml, k, hk, rfl⟩ := hloop
  rw [hxml, Nat.succ_injective hk]

/-- What the writer returns, when its counter can count the path: the elements above the last have
the first name. -/
theorem setDataWithPathElem_cons {iter item : Name} {names : List Name} {res : List UInt8}
    (hlast : (iter :: names).getLast? = some item) (hfits : names.length < 2^31) :
    setDataWithPathElem text (iter :: names) value res =
      some (true, text.getDoc (written iter names.length item value)) := by
  cases names with
  | nil =>
    obtain rfl : iter = item := Option.some_inj.mp hlast
    rfl
  | cons name names =>
    have hitem : (name :: names).getLast (List.cons_ne_nil name names) = item := by
      rw [List.getLast?_cons_cons, List.getLast?_eq_some_getLast (List.cons_ne_nil _ _)] at hlast
      exact Option.some_inj.mp hlast
    have hloop := forInt_chain iter hfits
    have hadd := addChildElem_chain iter item names.length (Text.ofBytes value)
    calc setDataWithPathElem text (iter :: name :: names) value res
        = (some (chain iter names.length)).map fun xml =>
            (true, text.getDoc (xml.addChildElem item (Text.ofBytes value)).doc) := by
          rw [← hloop, ← hitem]
          rfl
      _ = some (true, text.getDoc (written iter (name :: names).length item value)) := by
          rw [Option.map_some, hadd]
          rfl

/-- The writer's counter overflows. -/
theorem setDataWithPathElem_eq_none {path_item : List Name} {res : List UInt8}
    (hlong : 2^31 < path_item.length) : setDataWithPathElem text path_item value res = none := by
  match path_item, hlong with
  | [_], hlong =>
    rw [List.length_singleton] at hlong
    omega
  | iter :: name :: names, hlong =>
    rw [setDataWithPathElem, forInt_eq_none (by decide) (Nat.le_sub_one_of_lt hlong)]
    rfl

/-! ## What the reader finds -/

/-- The reader's cursor below so many elements. -/
def descent (doc : Forest Elem) (k : ℕ) : BlMarkup := ⟨doc, down k, none, none⟩

/-- The row below the cursor has one element: it is found when it has the name. -/
theorem findElem_descent {doc children : Forest Elem} {e : Elem} {k : ℕ} (name : Name)
    (hrow : childrenAt doc (down k) = cons e children nil) :
    (descent doc k).findElem name =
      if e.name = name then some { descent doc k with pos := some 0 } else none := by
  simp only [BlMarkup.findElem, descent, Option.map_none, Option.getD_none, hrow,
    findFrom_singleton, decide_eq_true_eq]
  split_ifs <;> rfl

/-- The reader enters every element of a path whose names are those of the elements, and no other.
-/
theorem enterPath_eq {iter : Name} {ts : Forest Elem} (names : List Name) {j : ℕ}
    (hfits : j + names.length < 2^31) :
    enterPath j names (descent (nested ⟨iter, Text.empty⟩ (j + names.length) ts) j) =
      some (if ∀ name ∈ names, name = iter then
        some (descent (nested ⟨iter, Text.empty⟩ (j + names.length) ts) (j + names.length))
      else none) := by
  induction names generalizing j with
  | nil => rfl
  | cons name names ih =>
    have hlen : j + (name :: names).length = j + 1 + names.length := by
      rw [List.length_cons]
      omega
    rw [hlen] at hfits ⊢
    have hrow : childrenAt (nested (⟨iter, Text.empty⟩ : Elem) (j + 1 + names.length) ts) (down j) =
        cons ⟨iter, Text.empty⟩ (nested ⟨iter, Text.empty⟩ names.length ts) nil := by
      rw [Nat.add_assoc, Nat.add_comm 1]
      exact childrenAt_nested j (names.length + 1) ts
    rw [enterPath, findElem_descent name hrow]
    by_cases heq : iter = name
    · have hinto : BlMarkup.intoElem
          { descent (nested ⟨iter, Text.empty⟩ (j + 1 + names.length) ts) j with pos := some 0 } =
          descent (nested ⟨iter, Text.empty⟩ (j + 1 + names.length) ts) (j + 1) := by
        simp only [BlMarkup.intoElem, descent, down_succ]
      rw [if_pos heq]
      dsimp only
      rw [checkInt_succ (by omega), Option.bind_some, hinto, ih hfits]
      simp only [List.forall_mem_cons, heq, true_and]
    · rw [if_neg heq]
      simp only [List.forall_mem_cons, Ne.symm heq, false_and, if_false]

/-- No element of what the writer builds has both text and children. -/
theorem unmixed_written (iter : Name) (k : ℕ) (item : Name) :
    Unmixed (written iter k item value) := by
  induction k with
  | zero => exact ⟨Or.inr rfl, trivial, trivial⟩
  | succ k ih => exact ⟨Or.inl rfl, ih, trivial⟩

/-- What the writer builds is read back. -/
theorem setDoc_written (htext : Documented text) (iter : Name) (k : ℕ) (item : Name) :
    text.setDoc (text.getDoc (written iter k item value)) = some (written iter k item value) := by
  have hunmixed : Unmixed (written iter k item value) := unmixed_written iter k item
  cases k with
  | zero => exact htext.setDoc_getDoc _ _ hunmixed
  | succ k => exact htext.setDoc_getDoc _ _ hunmixed

/-- The loop that leaves the elements again ends. -/
theorem exists_forInt_outOfElem {n : ℕ} (hn : n < 2^31) (xml : BlMarkup) :
    ∃ xml', forInt n (fun _ xml => some (BlMarkup.outOfElem xml)) 0 xml = some xml' := by
  obtain ⟨xml', hloop, -⟩ := forInt_invariant (I := fun _ _ => True) hn (Nat.zero_le n) trivial
    fun _ xml _ _ => ⟨BlMarkup.outOfElem xml, rfl, trivial⟩
  exact ⟨xml', hloop⟩

/-- What the reader returns on what the writer built. -/
theorem getDataWithPathElem_written (htext : Documented text) (iter item : Name)
    (names : List Name) (res : List UInt8) (hfits : names.length < 2^31) :
    getDataWithPathElem text (text.getDoc (written iter names.length item value))
      (names ++ [item]) res =
    some (if ∀ name ∈ names, name = iter then (true, cstr value) else (false, res)) := by
  have henter : enterPath 0 names (BlMarkup.ofDoc (written iter names.length item value)) =
      some (if ∀ name ∈ names, name = iter then
        some (descent (written iter names.length item value) names.length) else none) := by
    have hdown : enterPath 0 names (descent (written iter (0 + names.length) item value) 0) = _ :=
      enterPath_eq names (by rwa [Nat.zero_add])
    rwa [Nat.zero_add] at hdown
  have hrow : childrenAt (written iter names.length item value) (down names.length) =
      leaf item value := childrenAt_nested names.length 0 (leaf item value)
  have hfind := findElem_descent item hrow
  rw [if_pos rfl] at hfind
  have hdata : BlMarkup.getData
      { descent (written iter names.length item value) names.length with pos := some 0 } =
        cstr value := by
    simp only [BlMarkup.getData, descent, hrow]
    rfl
  rw [getDataWithPathElem, List.getLast?_concat, Option.bind_some, setDoc_written htext,
    List.dropLast_concat]
  dsimp only
  rw [henter, Option.bind_some]
  by_cases hnames : ∀ name ∈ names, name = iter
  · rw [if_pos hnames, if_pos hnames, Option.bind_some, hfind, List.length_append,
      List.length_singleton, Nat.add_sub_cancel]
    obtain ⟨xml', hout⟩ := exists_forInt_outOfElem hfits
      { descent (written iter names.length item value) names.length with pos := some 0 }
    dsimp only
    rw [hout, Option.map_some, hdata]
  · rw [if_neg hnames, if_neg hnames]
    rfl

/-! ## The round trip -/

/-- The round trip of a path that the counters can count. -/
theorem roundTrips_append_iff (htext : Documented text) {iter item : Name} {names : List Name}
    (hhead : (names ++ [item]).head? = some iter) (hfits : names.length < 2^31) :
    RoundTrips text (names ++ [item]) value ↔ 0 ∉ value ∧ ∀ name ∈ names, name = iter := by
  obtain ⟨tail, htail⟩ := List.head?_eq_some_iff.mp hhead
  have hlen : tail.length = names.length := by
    have hlength := congrArg List.length htail
    rw [List.length_append, List.length_singleton, List.length_cons] at hlength
    omega
  have hset (res : List UInt8) : setDataWithPathElem text (names ++ [item]) value res =
      some (true, text.getDoc (written iter names.length item value)) := by
    rw [htail, ← hlen]
    apply setDataWithPathElem_cons
    · rw [← htail, List.getLast?_concat]
    · rwa [hlen]
  have hget (res : List UInt8) : getDataWithPathElem text
      (text.getDoc (written iter names.length item value)) (names ++ [item]) res =
        some (if ∀ name ∈ names, name = iter then (true, cstr value) else (false, res)) :=
    getDataWithPathElem_written htext iter item names res hfits
  constructor
  · intro hround
    obtain ⟨b, doc', hwrite, hread⟩ := hround [] []
    rw [hset, Option.some_inj, Prod.mk.injEq] at hwrite
    have hresult := hread hwrite.1.symm
    rw [← hwrite.2, hget, Option.some_inj] at hresult
    split_ifs at hresult with hnames
    · exact ⟨cstr_eq_self_iff.mp (Prod.mk.inj hresult).2, hnames⟩
    · exact absurd (Prod.mk.inj hresult).1 Bool.false_ne_true
  · rintro ⟨hvalue, hnames⟩ doc r
    refine ⟨true, _, hset doc, fun _ => ?_⟩
    rw [hget, if_pos hnames, cstr_eq_self hvalue]

/-- A path that the counters cannot count is not written. -/
theorem length_le_of_roundTrips {path_item : List Name} (hround : RoundTrips text path_item value) :
    path_item.length ≤ 2^31 := by
  obtain ⟨b, doc', hwrite, -⟩ := hround [] []
  by_contra hlong
  rw [setDataWithPathElem_eq_none (Nat.lt_of_not_le hlong)] at hwrite
  exact Option.some_ne_none _ hwrite.symm

/-- The reader returns the value exactly when the counters can count the path, the value has no NUL,
and every name but the last is the first name. -/
theorem roundTrips_path_iff (htext : Documented text) {path_item : List Name}
    (hne : path_item ≠ []) : RoundTrips text path_item value ↔ path_item.length ≤ 2^31 ∧ 0 ∉ value ∧
      ∀ name ∈ path_item.dropLast, path_item.head? = some name := by
  obtain rfl | ⟨names, item, rfl⟩ := path_item.eq_nil_or_concat'
  · exact absurd rfl hne
  obtain ⟨iter, hhead⟩ := Option.isSome_iff_exists.mp (List.isSome_head?.mpr hne)
  have hlength : (names ++ [item]).length ≤ 2^31 ↔ names.length < 2^31 := by
    rw [List.length_append, List.length_singleton, Nat.add_one_le_iff]
  rw [hlength, List.dropLast_concat, hhead]
  simp only [Option.some_inj]
  constructor
  · intro hround
    have hfits := hlength.mp (length_le_of_roundTrips hround)
    obtain ⟨hvalue, hnames⟩ := (roundTrips_append_iff htext hhead hfits).mp hround
    exact ⟨hfits, hvalue, fun name hname => (hnames name hname).symm⟩
  · rintro ⟨hfits, hvalue, hnames⟩
    exact (roundTrips_append_iff htext hhead hfits).mpr
      ⟨hvalue, fun name hname => (hnames name hname).symm⟩

/-! ## Two paths -/

/-- The text and the parser, right on one document, and any code of the others. -/
def tableText (doc : Forest Elem) (str : List UInt8) : MarkupText where
  getDoc d := if d = doc then str else List.replicate (Encodable.encode d + 1) 0
  setDoc s := if s = str then some doc else Encodable.decode (s.length - 1)

/-- The text of that document. -/
theorem getDoc_tableText (doc : Forest Elem) (str : List UInt8) :
    (tableText doc str).getDoc doc = str := if_pos rfl

/-- Every document is read back. -/
theorem documented_tableText (doc : Forest Elem) {str : List UInt8} (h : 0 ∉ str) :
    Documented (tableText doc str) := by
  constructor
  intro e children _
  by_cases heq : cons e children nil = doc
  · simp only [tableText, if_true, heq]
  · have hne (k : ℕ) : List.replicate (k + 1) 0 ≠ str := by
      rintro rfl
      exact h List.mem_cons_self
    simp only [tableText, if_neg heq, if_neg (hne _), List.length_replicate, Nat.add_sub_cancel,
      Encodable.encodek]

/-- The name `a`. -/
def nameA : Name := ⟨[97], by decide⟩

/-- The name `b`. -/
def nameB : Name := ⟨[98], by decide⟩

/-- The name `c`. -/
def nameC : Name := ⟨[99], by decide⟩

/-- The text of `<b>v</b>` in `<a>`. -/
def strAB : List UInt8 := [60, 97, 62, 10, 60, 98, 62, 118, 60, 47, 98, 62, 10, 60, 47, 97, 62, 10]

/-- The text of `<c>v</c>` in `<a>` in `<a>`. -/
def strAAC : List UInt8 :=
  [60, 97, 62, 10, 60, 97, 62, 10, 60, 99, 62, 118, 60, 47, 99, 62, 10, 60, 47, 97, 62, 10,
    60, 47, 97, 62, 10]

/-- Texts, with that of `<b>v</b>` in `<a>`. -/
def textAB : MarkupText := tableText (written nameA 1 nameB [118]) strAB

/-- Texts, with that of `<c>v</c>` in `<a>` in `<a>`. -/
def textAAC : MarkupText := tableText (written nameA 2 nameC [118]) strAAC

/-- The value `v` below `a` and `b` is read back. -/
theorem roundTrips_path_iff_nameB :
    Documented textAB ∧ RoundTrips textAB [nameA, nameB] [118] := by
  have htext : Documented textAB := documented_tableText _ (by decide)
  exact ⟨htext, (roundTrips_path_iff htext (List.cons_ne_nil _ _)).mpr (by decide)⟩

/-- The value `v` below `a`, `b` and `c` is written below `a`, `a` and `c`, and is not found. -/
theorem not_roundTrips_nameC : Documented textAAC ∧
    setDataWithPathElem textAAC [nameA, nameB, nameC] [118] [] = some (true, strAAC) ∧
    getDataWithPathElem textAAC strAAC [nameA, nameB, nameC] [] = some (false, []) ∧
    ¬ RoundTrips textAAC [nameA, nameB, nameC] [118] := by
  have htext : Documented textAAC := documented_tableText _ (by decide)
  have hdoc : textAAC.getDoc (written nameA 2 nameC [118]) = strAAC := getDoc_tableText _ _
  have hset : setDataWithPathElem textAAC [nameA, nameB, nameC] [118] [] = some (true, strAAC) := by
    rw [← hdoc]
    exact setDataWithPathElem_cons rfl (by decide)
  have hget : getDataWithPathElem textAAC strAAC [nameA, nameB, nameC] [] = some (false, []) := by
    rw [← hdoc]
    exact getDataWithPathElem_written htext nameA nameC [nameA, nameB] [] (by decide)
  refine ⟨htext, hset, hget, fun hround => ?_⟩
  obtain ⟨b, doc', hwrite, hread⟩ := hround [] []
  obtain ⟨rfl, rfl⟩ := Prod.mk.inj (Option.some_inj.mp (hset.symm.trans hwrite))
  exact absurd (hget.symm.trans (hread rfl)) (by decide)

end CxxPandora.Markup
