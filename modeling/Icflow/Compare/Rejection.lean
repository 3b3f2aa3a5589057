import Icflow.Compare.LoadPairs
import Icflow.Foundation.Collecting

set_option autoImplicit false

/-!
# Which result files are rejected

What a file contributes to the pairs, and the contents with which it is rejected, in the
terms of its JSON document: no order of members, targets or spellings is left in them.  The
three loops of `load_pairs` inside one file are shown to add just these pairs, or to fail
with a `ValueError` just on these contents.
-/

namespace Icflow.Compare

open Icflow.Foundation
open Icflow.Foundation.Json
open Icflow.PinTool

/-! ## The document of a file -/

/-- The bytes of what can be read as a file. -/
def readBytes : Tree → Option (List Char)
  | .file bytes => some bytes
  | .special read => read
  | .directory _ => none

/-- The value that Python's `json` reads from these bytes in UTF-8. -/
def decodeJson (bytes : List Char) : Option (Json Nat) :=
  (utf8Decode bytes).bind (parseStrict codePointDialect)

/-- Of equal keys the last one counts. -/
def lastValue (members : List (List Nat × Json Nat)) (key : List Nat) : Option (Json Nat) :=
  members.reverse.lookup key

/-- The address that a value stands for: a string that `int(s, 0)` accepts. -/
def addressOf (python : Interpreter) : Json Nat → Option Int
  | .str text => intOfStr python text
  | _ => none

/-- The contents that make a result file invalid. -/
inductive Rejected (python : Interpreter) (bytes : List Char) : Prop where
  /-- no JSON in UTF-8 -/
  | notJson (h : decodeJson bytes = none)
  /-- an integer with more digits than Python converts -/
  | number (value : Json Nat) (h : decodeJson bytes = some value) (lexeme : List Char)
      (hlexeme : lexeme ∈ value.numbers) (hdigits : python.converts lexeme = false)
  /-- no object -/
  | notAnObject (value : Json Nat) (h : decodeJson bytes = some value)
      (hvalue : ∀ members, value ≠ .obj members)
  /-- a key that is no address -/
  | key (members : List (List Nat × Json Nat)) (h : decodeJson bytes = some (.obj members))
      (name : List Nat) (value : Json Nat) (hmember : lastValue members name = some value)
      (hname : intOfStr python name = none)
  /-- targets that are no list -/
  | notAList (members : List (List Nat × Json Nat)) (h : decodeJson bytes = some (.obj members))
      (name : List Nat) (value : Json Nat) (hmember : lastValue members name = some value)
      (hvalue : ∀ elements, value ≠ .arr elements)
  /-- a target that is no address -/
  | target (members : List (List Nat × Json Nat)) (h : decodeJson bytes = some (.obj members))
      (name : List Nat) (elements : List (Json Nat))
      (hmember : lastValue members name = some (.arr elements))
      (element : Json Nat) (helement : element ∈ elements) (htarget : addressOf python element = none)

/-- A container inside as many others as Python's `json` goes into, before anything that it
rejects. -/
def TooDeep (python : Interpreter) (bytes : List Char) : Prop :=
  ∃ text, utf8Decode bytes = some text ∧
    firstExcess codePointDialect python.limits text = some .nesting

/-- The file can be loaded. -/
structure Loadable (python : Interpreter) (bytes : List Char) : Prop where
  accepted : ¬ Rejected python bytes
  shallow : ¬ TooDeep python bytes

/-- Reading it raises something that is no `ValueError`. -/
def Unreadable (python : Interpreter) (tree : Tree) : Prop :=
  ∀ bytes, readBytes tree = some bytes → TooDeep python bytes

/-- The site and the target of a pair that the document of a file holds. -/
def HoldsPair (python : Interpreter) (bytes : List Char) (site target : Int) : Prop :=
  ∃ members name elements element, decodeJson bytes = some (.obj members) ∧
    lastValue members name = some (.arr elements) ∧ intOfStr python name = some site ∧
    element ∈ elements ∧ addressOf python element = some target

/-! ## Dictionaries -/

theorem mem_dictInsert {dict : List (List Nat × Json Nat)} {key name : List Nat}
    {value inner : Json Nat} :
    (name, inner) ∈ dictInsert dict key value ↔
      name = key ∧ inner = value ∨ name ≠ key ∧ (name, inner) ∈ dict := by
  unfold dictInsert
  by_cases hany : dict.any (·.1 == key)
  · rw [if_pos hany, List.mem_map]
    obtain ⟨present, hpresent, hkey⟩ := List.any_eq_true.mp hany
    constructor
    · rintro ⟨entry, hentry, heq⟩
      by_cases hname : entry.1 = key
      · rw [if_pos hname, Prod.mk.injEq] at heq
        exact Or.inl ⟨heq.1.symm, heq.2.symm⟩
      · rw [if_neg hname] at heq
        subst heq
        exact Or.inr ⟨hname, hentry⟩
    · rintro (⟨rfl, rfl⟩ | ⟨hname, hmem⟩)
      · exact ⟨present, hpresent, if_pos (eq_of_beq hkey)⟩
      · exact ⟨(name, inner), hmem, if_neg hname⟩
  · rw [if_neg hany, List.mem_append, List.mem_singleton, Prod.mk.injEq, or_comm]
    apply or_congr_right
    refine ⟨fun hmem => ⟨?_, hmem⟩, And.right⟩
    rintro rfl
    exact hany (List.any_eq_true.mpr ⟨_, hmem, beq_self_eq_true _⟩)

theorem lastValue_concat (members : List (List Nat × Json Nat)) (member : List Nat × Json Nat)
    (key : List Nat) :
    lastValue (members ++ [member]) key =
      if key = member.1 then some member.2 else lastValue members key := by
  unfold lastValue
  rw [List.reverse_append, List.reverse_singleton, List.singleton_append, List.lookup_cons]
  by_cases h : key = member.1
  · rw [if_pos h, beq_iff_eq.mpr h]
  · rw [if_neg h, beq_eq_false_iff_ne.mpr h]

/-- The dictionary of a document holds the last value of each key. -/
theorem mem_dictOf {members : List (List Nat × Json Nat)} {key : List Nat} {value : Json Nat} :
    (key, value) ∈ dictOf members ↔ lastValue members key = some value := by
  induction members using List.reverseRecOn with
  | nil => simp [dictOf, lastValue]
  | append_singleton members member ih =>
      have hstep : dictOf (members ++ [member]) = dictInsert (dictOf members) member.1 member.2 := by
        simp only [dictOf, List.foldl_append, List.foldl_cons, List.foldl_nil]
      rw [hstep, mem_dictInsert, ih, lastValue_concat]
      by_cases h : key = member.1
      · simp [h, eq_comm]
      · simp [h]

/-! ## The loops over one file -/

section Loops

variable (python : Interpreter) (identity path : List Char)

/-- The faults that count as a rejection. -/
def IsValueError (fault : PairsFault) : Prop := fault.isValueError = true

theorem parseAddress_cases (value : Json Nat) (label : AddressLabel) :
    (∃ address, addressOf python value = some address ∧
        parseAddress python value label path = .ok address) ∨
      addressOf python value = none ∧
        ∃ fault, parseAddress python value label path = .error fault ∧ IsValueError fault := by
  cases value with
  | str characters =>
      simp only [addressOf, parseAddress]
      cases intOfStr python characters with
      | some address => exact Or.inl ⟨address, rfl, rfl⟩
      | none => exact Or.inr ⟨rfl, _, rfl, rfl⟩
  | null => exact Or.inr ⟨rfl, _, rfl, rfl⟩
  | bool _ => exact Or.inr ⟨rfl, _, rfl, rfl⟩
  | num _ => exact Or.inr ⟨rfl, _, rfl, rfl⟩
  | arr _ => exact Or.inr ⟨rfl, _, rfl, rfl⟩
  | obj _ => exact Or.inr ⟨rfl, _, rfl, rfl⟩

theorem addTargets_collects (source : Int) (elements : List (Json Nat)) :
    Collects (addTargets python identity path source elements)
      (∀ element ∈ elements, ∃ target, addressOf python element = some target)
      (fun pair => ∃ element ∈ elements, ∃ target, addressOf python element = some target ∧
        pair = (identity, source, target))
      IsValueError := by
  induction elements with
  | nil =>
      refine (Collects.done IsValueError).congr ?_ ?_
      · simp
      · simp
  | cons element rest ih =>
      rcases parseAddress_cases python path element .target with
        ⟨target, haddress, hparse⟩ | ⟨haddress, fault, hparse, hfault⟩
      · have hrun : addTargets python identity path source (element :: rest) =
            andThen (fun pairs => .ok (insert (identity, source, target) pairs))
              (addTargets python identity path source rest) := by
          funext pairs
          rw [addTargets, hparse]
          rfl
        rw [hrun]
        refine ((Collects.adds _ IsValueError).andThen ih).congr ?_ ?_
        · rw [List.forall_mem_cons, haddress]
          simp
        · intro _ pair
          rw [List.exists_mem_cons_iff, haddress]
          simp
      · have hrun : addTargets python identity path source (element :: rest) =
            fun _ => .error fault := by
          funext pairs
          rw [addTargets, hparse]
        rw [hrun]
        refine (Collects.fails hfault fun _ => False).congr ?_ False.elim
        rw [List.forall_mem_cons, haddress]
        simp

/-- One member of a document: a site, and a list of targets. -/
def GoodItem (item : List Nat × Json Nat) : Prop :=
  (∃ site, intOfStr python item.1 = some site) ∧
    ∃ elements, item.2 = .arr elements ∧
      ∀ element ∈ elements, ∃ target, addressOf python element = some target

/-- The pairs of one member. -/
def ItemPair (item : List Nat × Json Nat) (pair : Pair) : Prop :=
  ∃ site, intOfStr python item.1 = some site ∧ ∃ elements, item.2 = .arr elements ∧
    ∃ element ∈ elements, ∃ target, addressOf python element = some target ∧
      pair = (identity, site, target)

theorem addItems_collects (items : List (List Nat × Json Nat)) :
    Collects (addItems python identity path items) (∀ item ∈ items, GoodItem python item)
      (fun pair => ∃ item ∈ items, ItemPair python identity item pair) IsValueError := by
  induction items with
  | nil =>
      refine (Collects.done IsValueError).congr ?_ ?_
      · simp
      · simp
  | cons item rest ih =>
      obtain ⟨name, targets⟩ := item
      have hbad {fault : PairsFault} (hfault : IsValueError fault)
          (hitem : ¬ GoodItem python (name, targets))
          (hrun : addItems python identity path ((name, targets) :: rest) = fun _ => .error fault) :
          Collects (addItems python identity path ((name, targets) :: rest))
            (∀ item ∈ (name, targets) :: rest, GoodItem python item)
            (fun pair => ∃ item ∈ (name, targets) :: rest, ItemPair python identity item pair)
            IsValueError := by
        rw [hrun]
        refine (Collects.fails hfault fun _ => False).congr ?_ False.elim
        rw [List.forall_mem_cons]
        exact iff_of_false not_false fun h => hitem h.1
      rcases parseAddress_cases python path (.str name) .source with
        ⟨site, haddress, hparse⟩ | ⟨haddress, fault, hparse, hfault⟩
      · have hsite : intOfStr python name = some site := haddress
        cases targets with
        | arr elements =>
            have hrun : addItems python identity path ((name, .arr elements) :: rest) =
                andThen (addTargets python identity path site elements)
                  (addItems python identity path rest) := by
              funext pairs
              rw [addItems, hparse, andThen]
              dsimp only
              cases addTargets python identity path site elements pairs with
              | error fault => rfl
              | ok pairs' => rfl
            rw [hrun]
            refine ((addTargets_collects python identity path site elements).andThen ih).congr ?_ ?_
            · rw [List.forall_mem_cons]
              simp [GoodItem, hsite]
            · intro _ pair
              rw [List.exists_mem_cons_iff]
              simp [ItemPair, hsite]
        | null | bool _ | num _ | str _ | obj _ =>
            have hfault : IsValueError (.notAList path name) := rfl
            refine hbad hfault ?_ ?_
            · rintro ⟨_, elements, heq, _⟩
              cases heq
            · funext pairs
              rw [addItems, hparse]
      · refine hbad hfault ?_ ?_
        · rintro ⟨⟨site, hsite⟩, _⟩
          exact Option.some_ne_none site (hsite.symm.trans haddress)
        · funext pairs
          rw [addItems, hparse]


theorem readText_of_readBytes {tree : Tree} {bytes : List Char} (h : readBytes tree = some bytes) :
    readText path tree =
      match utf8Decode bytes with
      | some characters => .ok characters
      | none => .error (.decodeError path) := by
  cases tree with
  | file inner =>
      cases h
      rfl
  | directory entries => cases h
  | special read =>
      have hsome : read = some bytes := h
      rw [hsome]
      rfl

/-- Reading either fails with an `OSError`, or finds containers too deep inside one another. -/
theorem addFile_of_unreadable {tree : Tree} (h : Unreadable python tree) (pairs : Finset Pair) :
    ∃ fault, addFile python identity path tree pairs = .error fault ∧ ¬ IsValueError fault := by
  cases hread : readBytes tree with
  | none =>
      refine ⟨.osError path, ?_, Bool.false_ne_true⟩
      unfold addFile
      cases tree with
      | file bytes => cases hread
      | directory entries => rfl
      | special read =>
          have hnone : read = none := hread
          rw [hnone]
          rfl
  | some bytes =>
      obtain ⟨text, htext, hexcess⟩ := h bytes hread
      refine ⟨.recursionError, ?_, Bool.false_ne_true⟩
      have hreadText := readText_of_readBytes path hread
      rw [htext] at hreadText
      rw [addFile, hreadText]
      simp only [jsonLoads, hexcess]

/-- `json.loads` returns the value of a text, or it is rejected. -/
theorem jsonLoads_cases {bytes text : List Char} (htext : utf8Decode bytes = some text)
    (hshallow : ¬ TooDeep python bytes) :
    (∃ value, decodeJson bytes = some value ∧
        (∀ lexeme ∈ value.numbers, python.converts lexeme = true) ∧
        jsonLoads python path text = .ok value) ∨
      Rejected python bytes ∧
        ∃ fault, jsonLoads python path text = .error fault ∧ IsValueError fault := by
  have hdecode : decodeJson bytes = parseStrict codePointDialect text := by
    rw [decodeJson, htext, Option.bind_some]
  cases hparse : parseStrict codePointDialect text with
  | none =>
      refine Or.inr ⟨.notJson (hdecode.trans hparse), ?_⟩
      unfold jsonLoads
      cases hexcess : firstExcess codePointDialect python.limits text with
      | none => exact ⟨.jsonError path, by simp only [hparse], rfl⟩
      | some excess =>
          cases excess with
          | nesting => exact absurd ⟨text, htext, hexcess⟩ hshallow
          | number => exact ⟨.tooManyDigits, rfl, rfl⟩
  | some value =>
      obtain ⟨rest, hvalue⟩ := parse_of_parseStrict hparse
      have hshows : python.limits.Shows value.depth value.numbers
          (firstExcess codePointDialect python.limits text) := firstExcess_shows hvalue
      unfold jsonLoads
      cases hexcess : firstExcess codePointDialect python.limits text with
      | none =>
          rw [hexcess] at hshows
          exact Or.inl ⟨value, hdecode.trans hparse, hshows.2, by simp only [hparse]⟩
      | some excess =>
          cases excess with
          | nesting => exact absurd ⟨text, htext, hexcess⟩ hshallow
          | number =>
              rw [hexcess] at hshows
              obtain ⟨lexeme, hlexeme, hdigits⟩ := hshows
              exact Or.inr ⟨.number value (hdecode.trans hparse) lexeme hlexeme hdigits,
                .tooManyDigits, rfl, rfl⟩

/-- A value all of whose integers are converted is too deep when it is nested too deep. -/
theorem tooDeep_iff_of_value {bytes : List Char} {value : Json Nat}
    (h : decodeJson bytes = some value)
    (hnumbers : ∀ lexeme ∈ value.numbers, python.converts lexeme = true) :
    TooDeep python bytes ↔ python.maxNesting < value.depth := by
  obtain ⟨text, htext, hparse⟩ := Option.bind_eq_some_iff.mp h
  obtain ⟨rest, hvalue⟩ := parse_of_parseStrict hparse
  have hshows : python.limits.Shows value.depth value.numbers
      (firstExcess codePointDialect python.limits text) := firstExcess_shows hvalue
  constructor
  · rintro ⟨other, hother, hexcess⟩
    obtain rfl : text = other := Option.some.inj (htext.symm.trans hother)
    rw [hexcess] at hshows
    exact hshows
  · intro hdeep
    refine ⟨text, htext, ?_⟩
    cases hexcess : firstExcess codePointDialect python.limits text with
    | none =>
        rw [hexcess] at hshows
        exact absurd hshows.1 (not_le.mpr hdeep)
    | some excess =>
        cases excess with
        | nesting => rfl
        | number =>
            rw [hexcess] at hshows
            obtain ⟨lexeme, hlexeme, hdigits⟩ := hshows
            have hconverts : python.converts lexeme = false := hdigits
            rw [hnumbers lexeme hlexeme] at hconverts
            cases hconverts

section Document

variable {python} {bytes : List Char} {members : List (List Nat × Json Nat)}

/-- An object is rejected for one of its members. -/
theorem rejected_iff_of_object (h : decodeJson bytes = some (.obj members))
    (hnumbers : ∀ lexeme ∈ (Json.obj members).numbers, python.converts lexeme = true) :
    Rejected python bytes ↔ ∃ item ∈ dictOf members, ¬ GoodItem python item := by
  constructor
  · intro hrejected
    cases hrejected with
    | notJson hnone =>
        rw [h] at hnone
        cases hnone
    | number value hvalue lexeme hlexeme hdigits =>
        rw [h, Option.some.injEq] at hvalue
        rw [hnumbers lexeme (hvalue ▸ hlexeme)] at hdigits
        cases hdigits
    | notAnObject value hvalue hobject =>
        rw [h, Option.some.injEq] at hvalue
        exact absurd hvalue.symm (hobject members)
    | key other hother name value hmember hname =>
        rw [h, Option.some.injEq, Json.obj.injEq] at hother
        subst hother
        refine ⟨(name, value), mem_dictOf.mpr hmember, ?_⟩
        rintro ⟨⟨site, hsite⟩, _⟩
        exact Option.some_ne_none site (hsite.symm.trans hname)
    | notAList other hother name value hmember hvalue =>
        rw [h, Option.some.injEq, Json.obj.injEq] at hother
        subst hother
        refine ⟨(name, value), mem_dictOf.mpr hmember, ?_⟩
        rintro ⟨_, elements, helements, _⟩
        exact hvalue elements helements
    | target other hother name elements hmember element helement htarget =>
        rw [h, Option.some.injEq, Json.obj.injEq] at hother
        subst hother
        refine ⟨(name, .arr elements), mem_dictOf.mpr hmember, ?_⟩
        rintro ⟨_, inner, hinner, hgood⟩
        cases hinner
        obtain ⟨address, haddress⟩ := hgood element helement
        exact Option.some_ne_none address (haddress.symm.trans htarget)
  · rintro ⟨⟨name, value⟩, hmem, hbad⟩
    have hmember := mem_dictOf.mp hmem
    by_contra hnot
    refine hbad ⟨?_, ?_⟩
    · by_contra hsite
      exact hnot (.key members h name value hmember
        (Option.eq_none_iff_forall_ne_some.mpr (not_exists.mp hsite)))
    · by_contra htargets
      by_cases harr : ∃ elements, value = .arr elements
      · obtain ⟨elements, rfl⟩ := harr
        refine htargets ⟨elements, rfl, ?_⟩
        intro element helement
        by_contra htarget
        exact hnot (.target members h name elements hmember element helement
          (Option.eq_none_iff_forall_ne_some.mpr (not_exists.mp htarget)))
      · exact hnot (.notAList members h name value hmember (not_exists.mp harr))

/-- An object can be loaded when its members are good and it is nested no deeper than allowed. -/
theorem loadable_of_object (h : decodeJson bytes = some (.obj members))
    (hnumbers : ∀ lexeme ∈ (Json.obj members).numbers, python.converts lexeme = true)
    (hdepth : (Json.obj members).depth ≤ python.maxNesting)
    (hgood : ∀ item ∈ dictOf members, GoodItem python item) : Loadable python bytes where
  accepted := by
    rw [rejected_iff_of_object h hnumbers]
    rintro ⟨item, hitem, hbad⟩
    exact hbad (hgood item hitem)
  shallow := by
    rw [tooDeep_iff_of_value python h hnumbers]
    exact not_lt.mpr hdepth

theorem holdsPair_iff_of_object (h : decodeJson bytes = some (.obj members)) (pair : Pair)
    (identity : List Char) :
    (pair.1 = identity ∧ HoldsPair python bytes pair.2.1 pair.2.2) ↔
      ∃ item ∈ dictOf members, ItemPair python identity item pair := by
  constructor
  · rintro ⟨rfl, other, name, elements, element, hother, hmember, hsite, helement, htarget⟩
    rw [h, Option.some.injEq, Json.obj.injEq] at hother
    subst hother
    exact ⟨(name, .arr elements), mem_dictOf.mpr hmember, pair.2.1, hsite, elements, rfl, element,
      helement, pair.2.2, htarget, rfl⟩
  · rintro ⟨⟨name, value⟩, hmem, site, hsite, elements, rfl, element, helement, target, htarget, rfl⟩
    exact ⟨rfl, members, name, elements, element, h, mem_dictOf.mp hmem, hsite, helement, htarget⟩

end Document

/-- The body of the outer loop of `load_pairs`, on what can be read as a file. -/
theorem addFile_collects {tree : Tree} {bytes : List Char} (hread : readBytes tree = some bytes)
    (hshallow : ¬ TooDeep python bytes) :
    Collects (addFile python identity path tree) (¬ Rejected python bytes)
      (fun pair => pair.1 = identity ∧ HoldsPair python bytes pair.2.1 pair.2.2) IsValueError := by
  have hbad {fault : PairsFault} (hfault : IsValueError fault) (hrejected : Rejected python bytes)
      (hrun : addFile python identity path tree = fun _ => .error fault) :
      Collects (addFile python identity path tree) (¬ Rejected python bytes)
        (fun pair => pair.1 = identity ∧ HoldsPair python bytes pair.2.1 pair.2.2) IsValueError := by
    rw [hrun]
    exact (Collects.fails hfault fun _ => False).congr
      (iff_of_false not_false fun h => h hrejected) False.elim
  have hreadText := readText_of_readBytes path hread
  cases htext : utf8Decode bytes with
  | none =>
      rw [htext] at hreadText
      have hfault : IsValueError (.decodeError path) := rfl
      refine hbad hfault (.notJson ?_) ?_
      · rw [decodeJson, htext, Option.bind_none]
      · funext pairs
        rw [addFile, hreadText]
  | some text =>
      rw [htext] at hreadText
      rcases jsonLoads_cases python path htext hshallow with
        ⟨value, hvalue, hnumbers, hloads⟩ | ⟨hrejected, fault, hloads, hfault⟩
      · cases value with
        | obj members =>
            have hrun : addFile python identity path tree =
                addItems python identity path (dictOf members) := by
              funext pairs
              rw [addFile, hreadText]
              simp only [hloads]
            rw [hrun]
            refine (addItems_collects python identity path (dictOf members)).congr ?_ ?_
            · rw [rejected_iff_of_object hvalue hnumbers]
              simp only [not_exists, not_and, not_not]
            · intro _ pair
              exact (holdsPair_iff_of_object hvalue pair identity).symm
        | null | bool _ | num _ | str _ | arr _ =>
            have hfault : IsValueError (.notAnObject path) := rfl
            refine hbad hfault (.notAnObject _ hvalue ?_) ?_
            · intro members hobject
              cases hobject
            · funext pairs
              rw [addFile, hreadText]
              simp only [hloads]
      · refine hbad hfault hrejected ?_
        funext pairs
        rw [addFile, hreadText]
        simp only [hloads]

end Loops

end Icflow.Compare
