import Mathlib.Data.Nat.Basic

set_option autoImplicit false

/-!
# JSON values

Strings are lists over a parameter `υ`, the unit a decoder stores: a byte for a
C++ `std::string`, a code point (surrogates included) for a Python `str`.  A
number keeps its spelling, so that no reader has to commit to a numeric type.
Object members keep the order and the repetitions of the text; a decoder that
builds a map decides what a repeated name means.
-/

namespace Icflow.Foundation

/-- A JSON value over string units `υ`. -/
inductive Json (υ : Type) where
  | null
  | bool (value : Bool)
  | num (lexeme : List Char)
  | str (value : List υ)
  | arr (elements : List (Json υ))
  | obj (members : List (List υ × Json υ))

namespace Json

variable {υ ω : Type}

mutual

/-- Change the string unit. -/
def map (f : υ → ω) : Json υ → Json ω
  | .null => .null
  | .bool value => .bool value
  | .num lexeme => .num lexeme
  | .str value => .str (value.map f)
  | .arr elements => .arr (mapElements f elements)
  | .obj members => .obj (mapMembers f members)

/-- `map` on the elements of an array. -/
def mapElements (f : υ → ω) : List (Json υ) → List (Json ω)
  | [] => []
  | head :: rest => map f head :: mapElements f rest

/-- `map` on the members of an object, names included. -/
def mapMembers (f : υ → ω) : List (List υ × Json υ) → List (List ω × Json ω)
  | [] => []
  | (name, value) :: rest => (name.map f, map f value) :: mapMembers f rest

end

@[simp] theorem mapElements_eq (f : υ → ω) (elements : List (Json υ)) :
    mapElements f elements = elements.map (map f) := by
  induction elements with
  | nil => rfl
  | cons head rest ih => simp [mapElements, ih]

@[simp] theorem mapMembers_eq (f : υ → ω) (members : List (List υ × Json υ)) :
    mapMembers f members = members.map fun m => (m.1.map f, map f m.2) := by
  induction members with
  | nil => rfl
  | cons head rest ih => simp [mapMembers, ih]

mutual

@[simp] theorem map_id : (value : Json υ) → map id value = value
  | .null => rfl
  | .bool _ => rfl
  | .num _ => rfl
  | .str value => by rw [map, List.map_id]
  | .arr elements => by rw [map, mapElements_id elements]
  | .obj members => by rw [map, mapMembers_id members]

theorem mapElements_id : (elements : List (Json υ)) → mapElements id elements = elements
  | [] => rfl
  | head :: rest => by rw [mapElements, map_id head, mapElements_id rest]

theorem mapMembers_id :
    (members : List (List υ × Json υ)) → mapMembers id members = members
  | [] => rfl
  | (name, value) :: rest => by
      rw [mapMembers, List.map_id, map_id value, mapMembers_id rest]

end

mutual

/-- How deep arrays and objects are nested; a scalar has depth zero. -/
def depth : Json υ → Nat
  | .arr elements => depthElements elements + 1
  | .obj members => depthMembers members + 1
  | .null | .bool _ | .num _ | .str _ => 0

/-- The depth of the deepest element. -/
def depthElements : List (Json υ) → Nat
  | [] => 0
  | head :: rest => max (depth head) (depthElements rest)

/-- The depth of the deepest member. -/
def depthMembers : List (List υ × Json υ) → Nat
  | [] => 0
  | (_, value) :: rest => max (depth value) (depthMembers rest)

end

end Json

end Icflow.Foundation
