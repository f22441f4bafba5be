import CxxPandora.Lib.Forest
import CxxPandora.Lib.Loops

/-!
# Sub-documents below a path of elements

`GetSubDocsWithPathElem` and `GetSubDocWithPathElem` of `demos/markup/main.cpp`, over the tree of a
document and a cursor in it. The first function fails when an element above the last is not found,
but when the last is not, it succeeds with an empty vector, whose first entry the second function
then reads. `looksUp_iff` says for which documents and paths the second function is right.
-/

namespace CxxPandora.Markup

open Lib Forest

variable {α : Type}

/-! ## The cursor -/

/-- What is used of `BlMarkup`, over elements of a type `α`: its parser, whether `FindElem` takes an
element for one of a name, and the text of the document from the start of an element to its end. -/
structure Elements (α : Type) where
  setDoc : List UInt8 → Option (Forest α)
  hasName : List UInt8 → α → Bool
  subDoc : List UInt8 → List ℕ → List UInt8

/-- The position of a `BlMarkup`: the address of the parent, the element among its children, and the
child among that element's. -/
structure Cursor where
  posParent : List ℕ
  pos : Option ℕ
  posChild : Option ℕ

namespace Cursor

/-- Below an address, before the first element. -/
def below (addr : List ℕ) : Cursor := ⟨addr, none, none⟩

/-- The index from which `FindElem` searches. -/
def start (xml : Cursor) : ℕ := (xml.pos.map (· + 1)).getD 0

/-- `FindElem`: the next element of a name; `none` when there is none. -/
def findElem (m : Elements α) (doc : Forest α) (szName : List UInt8) (xml : Cursor) :
    Option Cursor :=
  (findFrom (m.hasName szName) xml.start (childrenAt doc xml.posParent)).map fun i =>
    { xml with pos := some i, posChild := none }

/-- `IntoElem`: the current element becomes the parent, and the current child the current element.
-/
def intoElem (xml : Cursor) : Cursor :=
  match xml.pos with
  | none => xml
  | some i => ⟨xml.posParent ++ [i], xml.posChild, none⟩

/-- `OutOfElem`: the parent becomes the current element, and the current element the current child.
-/
def outOfElem (xml : Cursor) : Cursor :=
  match xml.posParent.getLast? with
  | none => xml
  | some i => ⟨xml.posParent.dropLast, some i, xml.pos⟩

/-- `GetSubDoc`: the text of the current element. -/
def getSubDoc (m : Elements α) (xml_str : List UInt8) (xml : Cursor) : List UInt8 :=
  match xml.pos with
  | none => []
  | some i => m.subDoc xml_str (xml.posParent ++ [i])

end Cursor

/-- How many elements come after the current one. -/
def Cursor.left (doc : Forest α) (xml : Cursor) : ℕ :=
  (labels (childrenAt doc xml.posParent)).length - xml.start

/-- `FindElem` moves forward. -/
theorem Cursor.left_findElem {m : Elements α} {doc : Forest α} {szName : List UInt8}
    {xml xml' : Cursor} (h : xml.findElem m doc szName = some xml') :
    xml'.left doc < xml.left doc := by
  obtain ⟨i, hi, rfl⟩ := Option.map_eq_some_iff.mp h
  obtain ⟨hle, hlt⟩ := bounds_of_findFrom hi
  show (labels (childrenAt doc xml.posParent)).length - (i + 1) <
    (labels (childrenAt doc xml.posParent)).length - xml.start
  omega

/-! ## The look-up -/

/-- The first loop of `GetSubDocsWithPathElem`, from counter `i` on, over the names from there to
the last but one. Inside, `none` when a name is not found; outside, when the counter overflows. -/
def enterNames (m : Elements α) (doc : Forest α) :
    ℕ → List (List UInt8) → Cursor → Option (Option Cursor)
  | _, [], xml => some (some xml)
  | i, name :: names, xml =>
    match xml.findElem m doc name with
    | none => some none
    | some xml =>
      (checkInt ((i : ℤ) + 1)).bind fun _ => enterNames m doc (i + 1) names xml.intoElem

/-- The second loop: the sub-documents of the elements of a name from the current one on, and the
last of them as the current element. -/
def collect (m : Elements α) (xml_str : List UInt8) (doc : Forest α) (item : List UInt8)
    (xml : Cursor) : List (List UInt8) × Cursor :=
  match _h : xml.findElem m doc item with
  | none => ([], xml)
  | some xml' =>
    let rest := collect m xml_str doc item xml'
    (xml'.getSubDoc m xml_str :: rest.1, rest.2)
termination_by xml.left doc
decreasing_by exact Cursor.left_findElem _h

/-- `GetSubDocsWithPathElem`: its result, and `res` at its end; `none` when a counter overflows, or
the path has no last name. -/
def getSubDocsWithPathElem (m : Elements α) (xml_str : List UInt8) (path_item : List (List UInt8))
    (res : List (List UInt8)) : Option (Bool × List (List UInt8)) :=
  path_item.getLast?.bind fun item =>
    match m.setDoc xml_str with
    | none => some (false, res)
    | some doc =>
      (enterNames m doc 0 path_item.dropLast (.below [])).bind fun entered =>
        match entered with
        | none => some (false, res)
        | some xml =>
          let r := collect m xml_str doc item xml
          (forInt (path_item.length - 1) (fun _ xml => some (Cursor.outOfElem xml)) 0 r.2).map
            fun _ => (true, r.1)

/-- `GetSubDocWithPathElem`: its result, and `res` at its end; `none` when the first function is
undefined, or `v[0]` is read of an empty vector. -/
def getSubDocWithPathElem (m : Elements α) (xml_str : List UInt8) (path_item : List (List UInt8))
    (res : List UInt8) : Option (Bool × List UInt8) :=
  (getSubDocsWithPathElem m xml_str path_item []).bind fun p =>
    if p.1 then p.2.head?.map fun subDoc => (true, subDoc) else some (false, res)

/-! ## What is found -/

/-- The names of a path, as predicates of elements. -/
def namesOf (m : Elements α) (path_item : List (List UInt8)) : List (α → Bool) :=
  path_item.map m.hasName

/-- The look-up is right: it returns `true` and the sub-document of the element that is reached by
following, at each level, the first child of the name; or `false` and `res`, when the string is no
document or there is no such element. -/
def LooksUp (m : Elements α) (xml_str : List UInt8) (path_item : List (List UInt8))
    (res : List UInt8) : Prop :=
  getSubDocWithPathElem m xml_str path_item res =
    some (match (m.setDoc xml_str).bind (follow (namesOf m path_item)) with
      | some addr => (true, m.subDoc xml_str addr)
      | none => (false, res))

/-- The loop over the names above the last enters the elements that are followed. -/
theorem enterNames_eq (m : Elements α) (doc : Forest α) (names : List (List UInt8)) {i : ℕ}
    (addr : List ℕ) (hi : i < 2^31) :
    enterNames m doc i names (.below addr) =
      if i + followed (namesOf m names) (childrenAt doc addr) < 2^31 then
        some ((follow (namesOf m names) (childrenAt doc addr)).map fun addr' =>
          .below (addr ++ addr'))
      else none := by
  induction names generalizing i addr with
  | nil =>
    rw [if_pos (by exact hi)]
    show some (some (Cursor.below addr)) = some (some (Cursor.below (addr ++ [])))
    rw [List.append_nil]
  | cons name names ih =>
    have hstart : (Cursor.below addr).findElem m doc name =
        (findFrom (m.hasName name) 0 (childrenAt doc addr)).map fun j =>
          { Cursor.below addr with pos := some j, posChild := none } := rfl
    have hcons : namesOf m (name :: names) = m.hasName name :: namesOf m names := rfl
    rw [enterNames, hstart, hcons]
    cases hfind : findFrom (m.hasName name) 0 (childrenAt doc addr) with
    | none =>
      have hfollowed : followed (m.hasName name :: namesOf m names) (childrenAt doc addr) = 0 := by
        rw [followed, hfind]
      rw [hfollowed, if_pos (by exact hi), follow, hfind]
      rfl
    | some j =>
      have hfollowed : followed (m.hasName name :: namesOf m names) (childrenAt doc addr) =
          followed (namesOf m names) (childrenAt doc (addr ++ [j])) + 1 := by
        rw [followed, hfind, childrenAt_append]
      have hinto : Cursor.intoElem { Cursor.below addr with pos := some j, posChild := none } =
          .below (addr ++ [j]) := rfl
      rw [hfollowed, follow, hfind, Option.bind_some, ← childrenAt_append, Option.map_some]
      dsimp only
      rw [hinto]
      rcases checkInt_succ_cases i with ⟨hle, hcheck⟩ | ⟨hlt, hcheck⟩
      · rw [hcheck, if_neg (by omega), Option.bind_none]
      · rw [hcheck, Option.bind_some, ih (addr ++ [j]) hlt, Option.map_map]
        have hsum : i + 1 + followed (namesOf m names) (childrenAt doc (addr ++ [j])) =
            i + (followed (namesOf m names) (childrenAt doc (addr ++ [j])) + 1) := by omega
        have hbelow : (fun addr' => Cursor.below (addr ++ addr')) ∘ (j :: ·) =
            fun addr' => Cursor.below (addr ++ [j] ++ addr') := by
          funext addr'
          rw [Function.comp_apply, List.append_assoc, List.singleton_append]
        rw [hsum, hbelow]

/-- What is collected begins with the first element of the name, if there is one. -/
theorem head?_collect (m : Elements α) (xml_str : List UInt8) (doc : Forest α) (item : List UInt8)
    (addr : List ℕ) :
    (collect m xml_str doc item (.below addr)).1.head? =
      (findFrom (m.hasName item) 0 (childrenAt doc addr)).map fun i =>
        m.subDoc xml_str (addr ++ [i]) := by
  have hfind : (Cursor.below addr).findElem m doc item =
      (findFrom (m.hasName item) 0 (childrenAt doc addr)).map fun i =>
        { Cursor.below addr with pos := some i, posChild := none } := rfl
  rw [collect]
  split
  · rename_i hnone
    rw [hfind, Option.map_eq_none_iff] at hnone
    rw [hnone]
    rfl
  · rename_i xml' hsome
    rw [hfind] at hsome
    obtain ⟨i, hi, rfl⟩ := Option.map_eq_some_iff.mp hsome
    rw [hi]
    rfl

/-- The loop back up has no effect but on its counter. -/
theorem exists_forInt_outOf {n : ℕ} (hn : n < 2^31) (xml : Cursor) :
    ∃ xml', forInt n (fun _ xml => some (Cursor.outOfElem xml)) 0 xml = some xml' := by
  obtain ⟨xml', hloop, -⟩ := forInt_invariant (I := fun _ _ => True) hn (Nat.zero_le n) trivial
    fun _ xml _ _ => ⟨Cursor.outOfElem xml, rfl, trivial⟩
  exact ⟨xml', hloop⟩

/-- The look-up in a document: it is undefined when a counter overflows, or when all names but the
last are followed. -/
theorem getSubDocWithPathElem_eq {m : Elements α} {xml_str : List UInt8} {doc : Forest α}
    (hdoc : m.setDoc xml_str = some doc) (names : List (List UInt8)) (item res : List UInt8) :
    getSubDocWithPathElem m xml_str (names ++ [item]) res =
      if followed (namesOf m names) doc < 2^31 then
        match follow (namesOf m names) doc with
        | none => some (false, res)
        | some addr => (findFrom (m.hasName item) 0 (childrenAt doc addr)).map fun i =>
            (true, m.subDoc xml_str (addr ++ [i]))
      else none := by
  have henter := enterNames_eq m doc names [] (i := 0) (by decide)
  rw [Nat.zero_add, childrenAt] at henter
  rw [getSubDocWithPathElem, getSubDocsWithPathElem, List.getLast?_concat, Option.bind_some, hdoc,
    List.dropLast_concat]
  dsimp only
  rw [henter]
  split_ifs with hfits
  · rw [Option.bind_some]
    cases hfollow : follow (namesOf m names) doc with
    | none => rfl
    | some addr =>
      have hlen := followed_of_follow hfollow
      have hnames : (namesOf m names).length = names.length := List.length_map _
      obtain ⟨xml', hout⟩ := exists_forInt_outOf (n := names.length) (by omega)
        (collect m xml_str doc item (.below ([] ++ addr))).2
      rw [Option.map_some, List.length_append, List.length_singleton, Nat.add_sub_cancel]
      dsimp only
      rw [hout, Option.map_some, Option.bind_some, if_pos rfl, head?_collect, Option.map_map]
      rfl
  · rfl

/-! ## When the look-up is right -/

/-- In a string that is no document nothing is looked up. -/
theorem looksUp_of_setDoc_none {m : Elements α} {xml_str : List UInt8}
    (hdoc : m.setDoc xml_str = none) {path_item : List (List UInt8)} (hpath : path_item ≠ [])
    (res : List UInt8) : LooksUp m xml_str path_item res := by
  rw [LooksUp, getSubDocWithPathElem, getSubDocsWithPathElem,
    List.getLast?_eq_some_getLast hpath, Option.bind_some, hdoc]
  rfl

/-- A path that ends before its last name is looked up when the counter can count as far. -/
theorem looksUp_iff_of_follow_none {m : Elements α} {xml_str : List UInt8} {doc : Forest α}
    (hdoc : m.setDoc xml_str = some doc) {names : List (List UInt8)} {item res : List UInt8}
    (hfollow : follow (namesOf m names) doc = none) :
    LooksUp m xml_str (names ++ [item]) res ↔ followed (namesOf m names) doc < 2^31 := by
  have happend : namesOf m (names ++ [item]) = namesOf m names ++ [m.hasName item] :=
    List.map_append
  rw [LooksUp, getSubDocWithPathElem_eq hdoc, hdoc, Option.bind_some, happend, follow_append,
    hfollow]
  dsimp only [Option.bind_none]
  split_ifs with hcount
  · exact iff_of_true rfl hcount
  · exact iff_of_false not_false hcount

/-- Where the path leads as far as its last name, that name has to be found. -/
theorem looksUp_iff_of_follow_some {m : Elements α} {xml_str : List UInt8} {doc : Forest α}
    (hdoc : m.setDoc xml_str = some doc) {names : List (List UInt8)} {item res : List UInt8}
    {addr : List ℕ} (hfollow : follow (namesOf m names) doc = some addr) :
    LooksUp m xml_str (names ++ [item]) res ↔
      findFrom (m.hasName item) 0 (childrenAt doc addr) ≠ none ∧ names.length < 2^31 := by
  have happend : namesOf m (names ++ [item]) = namesOf m names ++ [m.hasName item] :=
    List.map_append
  have hnames : (namesOf m names).length = names.length := List.length_map _
  rw [LooksUp, getSubDocWithPathElem_eq hdoc, hdoc, Option.bind_some, happend, follow_append,
    hfollow, followed_of_follow hfollow, hnames]
  dsimp only [Option.bind_some]
  cases hfind : findFrom (m.hasName item) 0 (childrenAt doc addr) with
  | none =>
    -- The last name is not found: `v` is empty.
    refine iff_of_false ?_ fun hall => hall.1 rfl
    rw [Option.map_none]
    split_ifs
    · exact not_false
    · exact not_false
  | some i =>
    rw [Option.map_some, Option.map_some]
    split_ifs with hcount
    · exact iff_of_true rfl ⟨Option.some_ne_none i, hcount⟩
    · exact iff_of_false not_false fun hall => hcount hall.2

/-- The look-up is right for exactly the documents and paths in which some name before the last is
not found, or the last is found too, and in which the counter can count the names that are. -/
theorem looksUp_iff (m : Elements α) (xml_str : List UInt8) {path_item : List (List UInt8)}
    (hpath : path_item ≠ []) (res : List UInt8) :
    LooksUp m xml_str path_item res ↔
      ∀ doc, m.setDoc xml_str = some doc →
        followed (namesOf m path_item) doc + 1 ≠ path_item.length ∧
          min (followed (namesOf m path_item) doc) (path_item.length - 1) < 2^31 := by
  cases hdoc : m.setDoc xml_str with
  | none =>
    exact iff_of_true (looksUp_of_setDoc_none hdoc hpath res)
      fun _ h => absurd h (Option.some_ne_none _).symm
  | some doc =>
    obtain ⟨names, item, rfl⟩ : ∃ names item, path_item = names ++ [item] :=
      ⟨_, _, (List.dropLast_append_getLast hpath).symm⟩
    have happend : namesOf m (names ++ [item]) = namesOf m names ++ [m.hasName item] :=
      List.map_append
    have hnames : (namesOf m names).length = names.length := List.length_map _
    have hle := followed_le_append (namesOf m names) (m.hasName item) doc
    rw [happend, List.length_append, List.length_singleton, Nat.add_sub_cancel]
    simp only [Option.some.injEq, forall_eq']
    cases hfollow : follow (namesOf m names) doc with
    | none =>
      have hlt := followed_lt hfollow
      rw [looksUp_iff_of_follow_none hdoc hfollow,
        followed_append_of_lt (m.hasName item) hfollow, Nat.min_eq_left (by omega)]
      exact (and_iff_right (by omega)).symm
    | some addr =>
      have hlen := followed_of_follow hfollow
      have hlast := follow_append (namesOf m names) (m.hasName item) doc
      rw [hfollow, Option.bind_some] at hlast
      rw [looksUp_iff_of_follow_some hdoc hfollow, Nat.min_eq_right (by omega)]
      refine and_congr_left' ?_
      cases hfind : findFrom (m.hasName item) 0 (childrenAt doc addr) with
      | none =>
        rw [hfind, Option.map_none] at hlast
        have hlt := followed_lt hlast
        rw [List.length_append, List.length_singleton] at hlt
        exact iff_of_false (not_not.mpr rfl) fun hne => hne (by omega)
      | some i =>
        rw [hfind, Option.map_some] at hlast
        have hall := followed_of_follow hlast
        rw [List.length_append, List.length_singleton] at hall
        exact iff_of_true (Option.some_ne_none i) (by omega)

/-- The text of `<a><a/><a/></a>`. -/
def nestedText : List UInt8 := [60, 97, 62, 60, 97, 47, 62, 60, 97, 47, 62, 60, 47, 97, 62]

/-- This document, as the parser reads it: the inner elements are at characters 3 and 7. -/
def nested : Elements (List UInt8) where
  setDoc xml_str :=
    if xml_str = nestedText then some (cons [97] (cons [97] nil (cons [97] nil nil)) nil) else none
  hasName szName name := szName == name
  subDoc xml_str addr :=
    match addr with
    | [0] => xml_str
    | [0, i] => (xml_str.drop (3 + 4 * i)).take 4
    | _ => []

/-- The path `a`, `a` leads to the first of the inner elements. -/
theorem looksUp_first : LooksUp nested nestedText [[97], [97]] [] := by
  refine (looksUp_iff nested nestedText (List.cons_ne_nil _ _) []).mpr ?_
  rintro doc hdoc
  obtain rfl : cons [97] (cons [97] nil (cons [97] nil nil)) nil = doc := Option.some.inj hdoc
  decide

/-- The document `<a/>`, as the parser reads it. -/
def oneElement : Elements (List UInt8) where
  setDoc xml_str := if xml_str = [60, 97, 47, 62] then some (cons [97] nil nil) else none
  hasName szName name := szName == name
  subDoc xml_str addr := if addr = [0] then xml_str else []

/-- An element that is not there is read of an empty vector. -/
theorem not_looksUp_missing : ¬∀ (m : Elements (List UInt8)) (xml_str : List UInt8)
    (path_item : List (List UInt8)) (res : List UInt8), path_item ≠ [] →
      LooksUp m xml_str path_item res := by
  intro h
  have hdoc : oneElement.setDoc [60, 97, 47, 62] = some (cons [97] nil nil) := rfl
  have hmissing := h oneElement [60, 97, 47, 62] [[98]] [] (List.cons_ne_nil _ _)
  rw [LooksUp, ← List.nil_append [[98]], getSubDocWithPathElem_eq hdoc] at hmissing
  exact absurd hmissing (by decide)

end CxxPandora.Markup
