import Icflow.Compare.Agreement
import Icflow.Compare.Rejection
import Icflow.Generate.Scanned

set_option autoImplicit false

/-!
# Dictionaries

`json.loads` makes a dictionary of an object: of members with one name the last value is
kept, in the place of the first.  What it makes is printed and read back as it is.
-/

namespace Icflow.Generate

open Icflow.Foundation
open Icflow.Compare (dictOf dictInsert lastValue mem_dictOf dictOf_of_distinct)

mutual

/-- The value with a dictionary for every object. -/
def collapse : Json Nat → Json Nat
  | .null => .null
  | .bool value => .bool value
  | .num lexeme => .num lexeme
  | .str value => .str value
  | .arr elements => .arr (collapseElements elements)
  | .obj members => .obj (dictOf (collapseMembers members))

/-- `collapse` on the elements of an array. -/
def collapseElements : List (Json Nat) → List (Json Nat)
  | [] => []
  | value :: rest => collapse value :: collapseElements rest

/-- `collapse` on the members of an object. -/
def collapseMembers : List (Name × Json Nat) → List (Name × Json Nat)
  | [] => []
  | (name, value) :: rest => (name, collapse value) :: collapseMembers rest

end

mutual

/-- Every object is a dictionary. -/
def Distinct : Json Nat → Prop
  | .null | .bool _ | .num _ | .str _ => True
  | .arr elements => DistinctElements elements
  | .obj members => (members.Pairwise fun a b => a.1 ≠ b.1) ∧ DistinctMembers members

/-- `Distinct` on the elements of an array. -/
def DistinctElements : List (Json Nat) → Prop
  | [] => True
  | value :: rest => Distinct value ∧ DistinctElements rest

/-- `Distinct` on the values of members. -/
def DistinctMembers : List (Name × Json Nat) → Prop
  | [] => True
  | (_, value) :: rest => Distinct value ∧ DistinctMembers rest

end

/-- `json.loads` -/
def pythonLoads (input : Name) : Option (Json Nat) := (loads input).map collapse

/-! ## One dictionary -/

section Dictionary

variable {members : List (Name × Json Nat)}

theorem distinctMembers_iff : DistinctMembers members ↔ ∀ member ∈ members, Distinct member.2 := by
  induction members with
  | nil => exact iff_of_true trivial (List.forall_mem_nil _)
  | cons member members ih => rw [DistinctMembers, ih, List.forall_mem_cons]

theorem holdsMembers_iff {Strings : Name → Prop} {Numbers : List Char → Prop} :
    HoldsMembers Strings Numbers members ↔
      ∀ member ∈ members, Strings member.1 ∧ Holds Strings Numbers member.2 := by
  induction members with
  | nil => exact iff_of_true trivial (List.forall_mem_nil _)
  | cons member members ih => rw [HoldsMembers, ih, List.forall_mem_cons, and_assoc]

/-- A member of a dictionary is one of the object. -/
theorem mem_of_mem_dictOf {member : Name × Json Nat} (h : member ∈ dictOf members) :
    member ∈ members := by
  obtain ⟨name, value⟩ := member
  have hlast : members.reverse.lookup name = some value := mem_dictOf.mp h
  obtain ⟨before, after, hsplit, _⟩ := List.lookup_eq_some_iff.mp hlast
  rw [← List.mem_reverse, hsplit]
  exact List.mem_append_right _ List.mem_cons_self

theorem distinct_dictInsert {dict : List (Name × Json Nat)} (h : dict.Pairwise fun a b => a.1 ≠ b.1)
    (key : Name) (value : Json Nat) : (dictInsert dict key value).Pairwise fun a b => a.1 ≠ b.1 := by
  unfold dictInsert
  split
  · rw [List.pairwise_map]
    refine h.imp ?_
    intro a b hne
    have hkey : ∀ entry : Name × Json Nat,
        (if entry.1 = key then (key, value) else entry).1 = entry.1 := by
      intro entry
      split
      · rename_i heq
        exact heq.symm
      · rfl
    rwa [hkey, hkey]
  · rename_i hnew
    rw [List.pairwise_append]
    refine ⟨h, List.pairwise_singleton _ _, ?_⟩
    intro a ha b hb heq
    rw [List.mem_singleton.mp hb] at heq
    exact hnew (List.any_eq_true.mpr ⟨a, ha, beq_iff_eq.mpr heq⟩)

/-- The names of a dictionary are distinct. -/
theorem distinct_dictOf (members : List (Name × Json Nat)) :
    (dictOf members).Pairwise fun a b => a.1 ≠ b.1 := by
  have hfold : ∀ dict : List (Name × Json Nat), (dict.Pairwise fun a b => a.1 ≠ b.1) →
      (members.foldl (fun dict member => dictInsert dict member.1 member.2) dict).Pairwise
        fun a b => a.1 ≠ b.1 := by
    induction members with
    | nil => exact fun dict h => h
    | cons member members ih =>
        intro dict h
        exact ih _ (distinct_dictInsert h member.1 member.2)
  exact hfold [] List.Pairwise.nil

end Dictionary

/-! ## All dictionaries of a value -/

mutual

theorem distinct_collapse : (value : Json Nat) → Distinct (collapse value)
  | .null => trivial
  | .bool _ => trivial
  | .num _ => trivial
  | .str _ => trivial
  | .arr elements => distinct_collapseElements elements
  | .obj members => by
      have hmembers := distinctMembers_iff.mp (distinct_collapseMembers members)
      refine ⟨distinct_dictOf _, distinctMembers_iff.mpr ?_⟩
      intro member hmember
      exact hmembers member (mem_of_mem_dictOf hmember)

theorem distinct_collapseElements : (elements : List (Json Nat)) →
    DistinctElements (collapseElements elements)
  | [] => trivial
  | value :: rest => ⟨distinct_collapse value, distinct_collapseElements rest⟩

theorem distinct_collapseMembers : (members : List (Name × Json Nat)) →
    DistinctMembers (collapseMembers members)
  | [] => trivial
  | (_, value) :: rest => ⟨distinct_collapse value, distinct_collapseMembers rest⟩

end

mutual

/-- A value of dictionaries is left as it is. -/
theorem collapse_of_distinct : (value : Json Nat) → Distinct value → collapse value = value
  | .null, _ => rfl
  | .bool _, _ => rfl
  | .num _, _ => rfl
  | .str _, _ => rfl
  | .arr elements, h => by rw [collapse, collapseElements_of_distinct elements h]
  | .obj members, h => by
      rw [collapse, collapseMembers_of_distinct members h.2, dictOf_of_distinct h.1]

theorem collapseElements_of_distinct : (elements : List (Json Nat)) → DistinctElements elements →
    collapseElements elements = elements
  | [], _ => rfl
  | value :: rest, h => by
      rw [collapseElements, collapse_of_distinct value h.1, collapseElements_of_distinct rest h.2]

theorem collapseMembers_of_distinct : (members : List (Name × Json Nat)) → DistinctMembers members →
    collapseMembers members = members
  | [], _ => rfl
  | (_, value) :: rest, h => by
      rw [collapseMembers, collapse_of_distinct value h.1, collapseMembers_of_distinct rest h.2]

end

mutual

/-- What holds of all strings and numbers of a value holds of those of its dictionaries. -/
theorem holds_collapse {Strings : Name → Prop} {Numbers : List Char → Prop} :
    (value : Json Nat) → Holds Strings Numbers value → Holds Strings Numbers (collapse value)
  | .null, h => h
  | .bool _, h => h
  | .num _, h => h
  | .str _, h => h
  | .arr elements, h => holds_collapseElements elements h
  | .obj members, h => by
      have hmembers := holdsMembers_iff.mp (holds_collapseMembers members h)
      refine holdsMembers_iff.mpr ?_
      intro member hmember
      exact hmembers member (mem_of_mem_dictOf hmember)

theorem holds_collapseElements {Strings : Name → Prop} {Numbers : List Char → Prop} :
    (elements : List (Json Nat)) → HoldsElements Strings Numbers elements →
      HoldsElements Strings Numbers (collapseElements elements)
  | [], _ => trivial
  | value :: rest, h => ⟨holds_collapse value h.1, holds_collapseElements rest h.2⟩

theorem holds_collapseMembers {Strings : Name → Prop} {Numbers : List Char → Prop} :
    (members : List (Name × Json Nat)) → HoldsMembers Strings Numbers members →
      HoldsMembers Strings Numbers (collapseMembers members)
  | [], _ => trivial
  | (_, value) :: rest, h => ⟨h.1, holds_collapse value h.2.1, holds_collapseMembers rest h.2.2⟩

end

theorem map_fst_respelledMembers (number : List Char → Name) (members : List (Name × Json Nat)) :
    (respelledMembers number members).map Prod.fst = members.map Prod.fst := by
  induction members with
  | nil => rfl
  | cons member members ih => rw [respelledMembers, List.map_cons, ih, List.map_cons]

mutual

/-- Another spelling of the numbers leaves the names distinct. -/
theorem distinct_respelled (number : List Char → Name) :
    (value : Json Nat) → Distinct value → Distinct (respelled number value)
  | .null, _ => trivial
  | .bool _, _ => trivial
  | .num _, _ => trivial
  | .str _, _ => trivial
  | .arr elements, h => distinct_respelledElements number elements h
  | .obj members, h => by
      have hnames : (respelledMembers number members).map Prod.fst = members.map Prod.fst :=
        map_fst_respelledMembers number members
      refine ⟨?_, distinct_respelledMembers number members h.2⟩
      rw [← List.pairwise_map (f := Prod.fst) (R := fun a b : Name => a ≠ b), hnames, List.pairwise_map]
      exact h.1

theorem distinct_respelledElements (number : List Char → Name) :
    (elements : List (Json Nat)) → DistinctElements elements →
      DistinctElements (respelledElements number elements)
  | [], _ => trivial
  | value :: rest, h =>
      ⟨distinct_respelled number value h.1, distinct_respelledElements number rest h.2⟩

theorem distinct_respelledMembers (number : List Char → Name) :
    (members : List (Name × Json Nat)) → DistinctMembers members →
      DistinctMembers (respelledMembers number members)
  | [], _ => trivial
  | (_, value) :: rest, h =>
      ⟨distinct_respelled number value h.1, distinct_respelledMembers number rest h.2⟩

end

end Icflow.Generate
