import Icflow.Foundation.Json.Syntax
import Mathlib.Data.List.Nodup

set_option autoImplicit false

/-!
# Values that follow a schema

A schema is itself a JSON value.  Of its keywords those are read that say which strings,
arrays and objects are meant: `type`, `items`, `properties`, `required` and
`additionalProperties`.  `key` spells the keywords.
-/

namespace Icflow.Foundation.Json

section Schema

variable {υ : Type} [BEq υ] [LawfulBEq υ]

/-- The member with this name; of equal names the last counts. -/
def member (members : List (List υ × Json υ)) (name : List υ) : Option (Json υ) :=
  members.reverse.lookup name

variable (key : String → List υ)

/-- What the keyword `type` calls a value. -/
def typeName : Json υ → List υ
  | .null => key "null"
  | .bool _ => key "boolean"
  | .num _ => key "number"
  | .str _ => key "string"
  | .arr _ => key "array"
  | .obj _ => key "object"

/-- The value follows the schema; a keyword that is not about values of its kind, or that is
not there, asks for nothing. -/
inductive Follows : Json υ → Json υ → Prop where
  | intro (keywords : List (List υ × Json υ)) (value : Json υ)
      (type : ∀ name, member keywords (key "type") = some (.str name) → typeName key value = name)
      (items : ∀ schema, member keywords (key "items") = some schema →
        ∀ elements, value = .arr elements → ∀ element ∈ elements, Follows schema element)
      (properties : ∀ schemas, member keywords (key "properties") = some (.obj schemas) →
        ∀ members, value = .obj members → ∀ name schema, member schemas name = some schema →
          ∀ found, member members name = some found → Follows schema found)
      (required : ∀ names, member keywords (key "required") = some (.arr names) →
        ∀ members, value = .obj members → ∀ name, .str name ∈ names →
          (member members name).isSome = true)
      (additional : member keywords (key "additionalProperties") = some (.bool false) →
        ∀ schemas, member keywords (key "properties") = some (.obj schemas) →
          ∀ members, value = .obj members →
            ∀ found ∈ members, (member schemas found.1).isSome = true) :
      Follows (.obj keywords) value

/-- The schema of a string. -/
def stringSchema : Json υ := .obj [(key "type", .str (key "string"))]

/-- The schema of an array of such elements. -/
def arraySchema (items : Json υ) : Json υ :=
  .obj [(key "type", .str (key "array")), (key "items", items)]

/-- The schema of an object with these properties and no others. -/
def closedSchema (properties : List (List υ × Json υ)) : Json υ :=
  .obj [(key "type", .str (key "object")), (key "additionalProperties", .bool false),
    (key "properties", .obj properties),
    (key "required", .arr (properties.map fun property => .str property.1))]

/-! ## Members -/

variable {key}

theorem isSome_member_iff {members : List (List υ × Json υ)} {name : List υ} :
    (member members name).isSome = true ↔ name ∈ members.map Prod.fst := by
  rw [member, List.lookup_isSome_iff, List.mem_map]
  simp only [List.mem_reverse, beq_iff_eq, eq_comm (a := name)]

theorem mem_of_member {members : List (List υ × Json υ)} {name : List υ} {value : Json υ}
    (h : member members name = some value) : (name, value) ∈ members := by
  obtain ⟨front, back, hsplit, _⟩ := List.lookup_eq_some_iff.mp h
  rw [← List.mem_reverse, hsplit]
  exact List.mem_append_cons_self

/-- Where no name occurs twice, the members are found. -/
theorem member_eq_some_iff {members : List (List υ × Json υ)}
    (hnodup : (members.map Prod.fst).Nodup) {name : List υ} {value : Json υ} :
    member members name = some value ↔ (name, value) ∈ members := by
  refine ⟨mem_of_member, ?_⟩
  intro hmem
  obtain ⟨found, hfound⟩ := Option.isSome_iff_exists.mp
    (isSome_member_iff.mpr (List.mem_map_of_mem hmem))
  have hsame := List.inj_on_of_nodup_map hnodup hmem (mem_of_member hfound) rfl
  rw [hfound, (Prod.mk.inj hsame).2]

/-- What keywords with different names say is found under their spelling. -/
theorem member_keywords (hkey : Function.Injective key) (keywords : List (String × Json υ))
    (hnodup : (keywords.map Prod.fst).Nodup) {word : String} {found : Json υ} :
    member (keywords.map fun keyword => (key keyword.1, keyword.2)) (key word) = some found ↔
      (word, found) ∈ keywords := by
  have hnames : ((keywords.map fun keyword => (key keyword.1, keyword.2)).map Prod.fst).Nodup := by
    rw [List.map_map]
    exact List.map_map (f := Prod.fst) (g := key) ▸ hnodup.map hkey
  rw [member_eq_some_iff hnames, List.mem_map]
  constructor
  · rintro ⟨keyword, hmem, hsame⟩
    obtain ⟨hword, rfl⟩ := Prod.mk.inj hsame
    obtain rfl := hkey hword
    exact hmem
  · intro hmem
    exact ⟨(word, found), hmem, rfl⟩

/-! ## Three kinds of schemas -/

section Kinds

variable (hkey : Function.Injective key)
include hkey

theorem follows_stringSchema_iff {value : Json υ} :
    Follows key (stringSchema key) value ↔ ∃ content, value = .str content := by
  have hkeyword : ∀ {word found}, member [(key "type", Json.str (key "string"))] (key word) =
      some found ↔ (word, found) ∈ [("type", Json.str (key "string"))] :=
    member_keywords hkey [("type", Json.str (key "string"))] (List.nodup_singleton _)
  constructor
  · rintro ⟨_, _, htype, _⟩
    have hname := htype _ (hkeyword.mpr List.mem_cons_self)
    cases value with
    | str content => exact ⟨content, rfl⟩
    | null | bool _ | num _ | arr _ | obj _ => exact absurd (hkey hname) (by decide)
  · rintro ⟨content, rfl⟩
    refine .intro _ _ ?_ ?_ ?_ ?_ ?_
    · intro name hname
      have hstring : name = key "string" := by simpa using hkeyword.mp hname
      rw [hstring, typeName]
    · exact fun _ h => absurd (hkeyword.mp h) (by simp)
    · exact fun _ h => absurd (hkeyword.mp h) (by simp)
    · exact fun _ h => absurd (hkeyword.mp h) (by simp)
    · exact fun h => absurd (hkeyword.mp h) (by simp)

theorem follows_arraySchema_iff {items value : Json υ} :
    Follows key (arraySchema key items) value ↔
      ∃ elements, value = .arr elements ∧ ∀ element ∈ elements, Follows key items element := by
  have hkeyword : ∀ {word found},
      member [(key "type", Json.str (key "array")), (key "items", items)] (key word) = some found ↔
        (word, found) ∈ [("type", Json.str (key "array")), ("items", items)] :=
    member_keywords hkey [("type", Json.str (key "array")), ("items", items)] (by simp)
  constructor
  · rintro ⟨_, _, htype, hitems, _⟩
    have hname := htype (key "array") (hkeyword.mpr (by simp))
    cases value with
    | arr elements => exact ⟨elements, rfl, hitems items (hkeyword.mpr (by simp)) elements rfl⟩
    | null | bool _ | num _ | str _ | obj _ => exact absurd (hkey hname) (by decide)
  · rintro ⟨elements, rfl, helements⟩
    refine .intro _ _ ?_ ?_ ?_ ?_ ?_
    · intro name hname
      have harray : name = key "array" := by simpa using hkeyword.mp hname
      rw [harray, typeName]
    · intro schema hschema elements' hvalue
      obtain rfl := Json.arr.inj hvalue
      have hitems : schema = items := by simpa using hkeyword.mp hschema
      rw [hitems]
      exact helements
    · exact fun _ h => absurd (hkeyword.mp h) (by simp)
    · exact fun _ h => absurd (hkeyword.mp h) (by simp)
    · exact fun h => absurd (hkeyword.mp h) (by simp)

/-- An object follows the schema when its members are those of the schema and each of them
follows its own. -/
theorem follows_closedSchema_iff {properties : List (List υ × Json υ)} {value : Json υ}
    (hnodup : (properties.map Prod.fst).Nodup) :
    Follows key (closedSchema key properties) value ↔
      ∃ members, value = .obj members ∧
        (∀ property ∈ properties, ∃ found, member members property.1 = some found ∧
          Follows key property.2 found) ∧
        ∀ found ∈ members, found.1 ∈ properties.map Prod.fst := by
  have hkeyword : ∀ {word found},
      member [(key "type", Json.str (key "object")), (key "additionalProperties", .bool false),
          (key "properties", .obj properties),
          (key "required", .arr (properties.map fun property => .str property.1))] (key word) =
        some found ↔
      (word, found) ∈ [("type", Json.str (key "object")), ("additionalProperties", .bool false),
        ("properties", .obj properties),
        ("required", .arr (properties.map fun property => .str property.1))] :=
    member_keywords hkey [("type", Json.str (key "object")), ("additionalProperties", .bool false),
      ("properties", .obj properties),
      ("required", .arr (properties.map fun property : List υ × Json υ => .str property.1))]
      (by simp)
  constructor
  · rintro ⟨_, _, htype, _, hproperties, hrequired, hadditional⟩
    have hname := htype (key "object") (hkeyword.mpr (by simp))
    have hschemas : member _ (key "properties") = some (.obj properties) := hkeyword.mpr (by simp)
    have hnames : member _ (key "required") =
        some (.arr (properties.map fun property => .str property.1)) := hkeyword.mpr (by simp)
    cases value with
    | obj members =>
        refine ⟨members, rfl, ?_, ?_⟩
        · intro property hproperty
          have hthere := hrequired _ hnames members rfl property.1 (List.mem_map_of_mem hproperty)
          obtain ⟨found, hfound⟩ := Option.isSome_iff_exists.mp hthere
          have hschema := (member_eq_some_iff hnodup).mpr hproperty
          exact ⟨found, hfound, hproperties _ hschemas members rfl _ _ hschema found hfound⟩
        · intro found hfound
          have hclosed := hadditional (hkeyword.mpr (by simp)) _ hschemas members rfl
          exact isSome_member_iff.mp (hclosed found hfound)
    | null | bool _ | num _ | str _ | arr _ => exact absurd (hkey hname) (by decide)
  · rintro ⟨members, rfl, hhas, honly⟩
    refine .intro _ _ ?_ ?_ ?_ ?_ ?_
    · intro name hname
      have hobject : name = key "object" := by simpa using hkeyword.mp hname
      rw [hobject, typeName]
    · exact fun _ h => absurd (hkeyword.mp h) (by simp)
    · intro schemas hschemas members' hvalue name schema hschema found hfound
      obtain rfl := Json.obj.inj hvalue
      obtain rfl : schemas = properties := by simpa using hkeyword.mp hschemas
      obtain ⟨there, hthere, hfollows⟩ := hhas _ (mem_of_member hschema)
      rw [hfound] at hthere
      obtain rfl := Option.some.inj hthere
      exact hfollows
    · intro names hnames members' hvalue name hname
      obtain rfl := Json.obj.inj hvalue
      have hrequired : names = properties.map fun property => .str property.1 := by
        simpa using hkeyword.mp hnames
      rw [hrequired] at hname
      obtain ⟨property, hproperty, hsame⟩ := List.mem_map.mp hname
      obtain rfl := Json.str.inj hsame
      obtain ⟨found, hfound, _⟩ := hhas _ hproperty
      rw [hfound]
      rfl
    · intro _ schemas hschemas members' hvalue found hfound
      obtain rfl := Json.obj.inj hvalue
      obtain rfl : schemas = properties := by simpa using hkeyword.mp hschemas
      exact isSome_member_iff.mpr (honly found hfound)

end Kinds

end Schema

end Icflow.Foundation.Json
