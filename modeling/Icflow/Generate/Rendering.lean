import Icflow.Generate.Numbers

set_option autoImplicit false

/-!
# Printed documents

`json.dumps` for any white space between the tokens and any spelling of code points and
numbers.  Whatever these are, a document is read back when its strings and numbers are:
strings as they were, numbers as they were spelled.
-/

namespace Icflow.Generate

open Icflow.Foundation

/-- The white space behind an opening bracket and behind a comma, and in front of a closing
bracket, by the indentation of the line. -/
structure Layout where
  opened : Nat → Name
  comma : Nat → Name
  closed : Nat → Name
  blank : ∀ indent, ∀ point ∈ opened indent ++ comma indent ++ closed indent, isBlank point = true

/-- How the code points of strings and the numbers of a document are written. -/
structure Spelling where
  point : Nat → Name
  number : List Char → Name

/-- A string with its quotes. -/
def Spelling.string (spelling : Spelling) (value : Name) : Name :=
  text "\"" ++ value.flatMap spelling.point ++ text "\""

mutual

/-- What `json.dumps` prints; `indent` is the indentation of the line the value starts on. -/
def render (layout : Layout) (spelling : Spelling) (indent : Nat) : Json Nat → Name
  | .null => text "null"
  | .bool true => text "true"
  | .bool false => text "false"
  | .num lexeme => spelling.number lexeme
  | .str value => spelling.string value
  | .arr [] => text "[]"
  | .arr (first :: rest) =>
      text "[" ++ layout.opened (indent + 2) ++ render layout spelling (indent + 2) first ++
        renderElements layout spelling (indent + 2) rest ++ layout.closed indent ++ text "]"
  | .obj [] => text "\x7b\x7d"
  | .obj ((name, value) :: rest) =>
      text "\x7b" ++ layout.opened (indent + 2) ++ spelling.string name ++ text ": " ++
        render layout spelling (indent + 2) value ++
        renderMembers layout spelling (indent + 2) rest ++ layout.closed indent ++ text "\x7d"

/-- The elements after the first. -/
def renderElements (layout : Layout) (spelling : Spelling) (indent : Nat) : List (Json Nat) → Name
  | [] => []
  | value :: rest =>
      text "," ++ layout.comma indent ++ render layout spelling indent value ++
        renderElements layout spelling indent rest

/-- The members after the first. -/
def renderMembers (layout : Layout) (spelling : Spelling) (indent : Nat) :
    List (Name × Json Nat) → Name
  | [] => []
  | (name, value) :: rest =>
      text "," ++ layout.comma indent ++ spelling.string name ++ text ": " ++
        render layout spelling indent value ++ renderMembers layout spelling indent rest

end

mutual

/-- All strings and names, and the spellings of all numbers, have a property. -/
def Holds (Strings : Name → Prop) (Numbers : List Char → Prop) : Json Nat → Prop
  | .null | .bool _ => True
  | .num lexeme => Numbers lexeme
  | .str value => Strings value
  | .arr elements => HoldsElements Strings Numbers elements
  | .obj members => HoldsMembers Strings Numbers members

/-- `Holds` on the elements of an array. -/
def HoldsElements (Strings : Name → Prop) (Numbers : List Char → Prop) : List (Json Nat) → Prop
  | [] => True
  | value :: rest => Holds Strings Numbers value ∧ HoldsElements Strings Numbers rest

/-- `Holds` on the members of an object. -/
def HoldsMembers (Strings : Name → Prop) (Numbers : List Char → Prop) :
    List (Name × Json Nat) → Prop
  | [] => True
  | (name, value) :: rest =>
      Strings name ∧ Holds Strings Numbers value ∧ HoldsMembers Strings Numbers rest

end

mutual

/-- The value that is read from a document: numbers are those that are spelled there. -/
def respelled (number : List Char → Name) : Json Nat → Json Nat
  | .null => .null
  | .bool value => .bool value
  | .num lexeme => .num ((number lexeme).map Char.ofNat)
  | .str value => .str value
  | .arr elements => .arr (respelledElements number elements)
  | .obj members => .obj (respelledMembers number members)

/-- `respelled` on the elements of an array. -/
def respelledElements (number : List Char → Name) : List (Json Nat) → List (Json Nat)
  | [] => []
  | value :: rest => respelled number value :: respelledElements number rest

/-- `respelled` on the members of an object. -/
def respelledMembers (number : List Char → Name) :
    List (Name × Json Nat) → List (Name × Json Nat)
  | [] => []
  | (name, value) :: rest => (name, respelled number value) :: respelledMembers number rest

end

/-- The strings with this property are read back from their spelling. -/
def Spelling.Readable (spelling : Spelling) (Strings : Name → Prop) : Prop :=
  ∀ value, Strings value → ∀ fuel rest, (value.flatMap spelling.point).length < fuel →
    scanString fuel (value.flatMap spelling.point ++ 34 :: rest) = some (value, rest)

/-! ## One node -/

section Nodes

variable (layout : Layout) (spelling : Spelling) (indent : Nat) (tail : Name)

theorem render_str (value : Name) :
    render layout spelling indent (.str value) ++ tail =
      34 :: (value.flatMap spelling.point ++ 34 :: tail) := by
  rw [render, Spelling.string]
  simp only [List.append_assoc]
  rfl

theorem render_arr (first : Json Nat) (others : List (Json Nat)) :
    render layout spelling indent (.arr (first :: others)) ++ tail =
      91 :: (layout.opened (indent + 2) ++ (render layout spelling (indent + 2) first ++
        (renderElements layout spelling (indent + 2) others ++
          (layout.closed indent ++ 93 :: tail)))) := by
  rw [render]
  simp only [List.append_assoc]
  rfl

theorem render_obj (name : Name) (value : Json Nat) (others : List (Name × Json Nat)) :
    render layout spelling indent (.obj ((name, value) :: others)) ++ tail =
      123 :: (layout.opened (indent + 2) ++
        34 :: (name.flatMap spelling.point ++ 34 :: 58 :: 32 ::
          (render layout spelling (indent + 2) value ++
            (renderMembers layout spelling (indent + 2) others ++
              (layout.closed indent ++ 125 :: tail))))) := by
  rw [render, Spelling.string]
  simp only [List.append_assoc]
  rfl

theorem renderElements_cons (value : Json Nat) (others : List (Json Nat)) :
    renderElements layout spelling indent (value :: others) ++ tail =
      44 :: (layout.comma indent ++ (render layout spelling indent value ++
        (renderElements layout spelling indent others ++ tail))) := by
  rw [renderElements]
  simp only [List.append_assoc]
  rfl

theorem renderMembers_cons (name : Name) (value : Json Nat) (others : List (Name × Json Nat)) :
    renderMembers layout spelling indent ((name, value) :: others) ++ tail =
      44 :: (layout.comma indent ++ 34 :: (name.flatMap spelling.point ++ 34 :: 58 :: 32 ::
        (render layout spelling indent value ++
          (renderMembers layout spelling indent others ++ tail)))) := by
  rw [renderMembers, Spelling.string]
  simp only [List.append_assoc]
  rfl

end Nodes

/-! ## White space -/

section Blanks

variable (layout : Layout) (indent : Nat) (rest : Name)

theorem skipBlank_append {blank : Name} (h : ∀ point ∈ blank, isBlank point = true) :
    skipBlank (blank ++ rest) = skipBlank rest :=
  List.dropWhile_append_of_pos h

theorem Layout.skipBlank_opened : skipBlank (layout.opened indent ++ rest) = skipBlank rest := by
  apply skipBlank_append
  intro point hpoint
  apply layout.blank indent
  simp [hpoint]

theorem Layout.skipBlank_comma : skipBlank (layout.comma indent ++ rest) = skipBlank rest := by
  apply skipBlank_append
  intro point hpoint
  apply layout.blank indent
  simp [hpoint]

theorem Layout.closed_blank : ∀ point ∈ layout.closed indent, isBlank point = true := by
  intro point hpoint
  apply layout.blank indent
  simp [hpoint]

theorem Layout.skipBlank_closed : skipBlank (layout.closed indent ++ rest) = skipBlank rest :=
  skipBlank_append rest (layout.closed_blank indent)

theorem not_continuesNumber_of_isBlank {point : Nat} (h : isBlank point = true) :
    continuesNumber point = false := by
  simp only [isBlank, continuesNumber, isDigit, Bool.or_eq_true, beq_iff_eq, Bool.or_eq_false_iff,
    Bool.and_eq_false_iff, decide_eq_false_iff_not, beq_eq_false_iff_ne] at *
  omega

/-- A bracket, with white space in front of it, does not go on with a number. -/
theorem Layout.delimited_closed {close : Nat} (hclose : continuesNumber close = false) :
    Delimited (layout.closed indent ++ close :: rest) := by
  have hblank := layout.closed_blank indent
  cases hclosed : layout.closed indent with
  | nil => exact delimited_cons hclose rest
  | cons point more =>
      rw [hclosed] at hblank
      exact delimited_cons (not_continuesNumber_of_isBlank (hblank point List.mem_cons_self)) _

end Blanks

section Reading

variable {layout : Layout} {spelling : Spelling} {Strings : Name → Prop}

/-- What is asked of a value so that it is read back. -/
abbrev Spelling.Spells (spelling : Spelling) (Strings : Name → Prop) : Json Nat → Prop :=
  Holds Strings fun lexeme => NumberText (spelling.number lexeme)

/-- A printed value neither starts with white space nor ends an array. -/
theorem exists_render_head (layout : Layout) (indent : Nat) {value : Json Nat}
    (hvalue : spelling.Spells Strings value) :
    ∃ point rest, render layout spelling indent value = point :: rest ∧ isBlank point = false ∧
      point ≠ 93 ∧ point ≠ 0xFEFF := by
  cases value with
  | null => exact ⟨110, _, rfl, rfl, by omega, by omega⟩
  | bool value =>
      cases value with
      | true => exact ⟨116, _, rfl, rfl, by omega, by omega⟩
      | false => exact ⟨102, _, rfl, rfl, by omega, by omega⟩
  | num lexeme =>
      obtain ⟨point, rest, heq, hstart⟩ := NumberText.head hvalue
      obtain ⟨hblank, _, _, hclose, _, hmark⟩ := startsScalar_ne hstart
      exact ⟨point, rest, heq, hblank, hclose, hmark⟩
  | str value => exact ⟨34, _, rfl, rfl, by omega, by omega⟩
  | arr elements =>
      cases elements with
      | nil => exact ⟨91, _, rfl, rfl, by omega, by omega⟩
      | cons first others => exact ⟨91, _, rfl, rfl, by omega, by omega⟩
  | obj members =>
      cases members with
      | nil => exact ⟨123, _, rfl, rfl, by omega, by omega⟩
      | cons first others => exact ⟨123, _, rfl, rfl, by omega, by omega⟩

theorem skipBlank_render (layout : Layout) (indent : Nat) (tail : Name) {value : Json Nat}
    (hvalue : spelling.Spells Strings value) :
    skipBlank (render layout spelling indent value ++ tail) =
      render layout spelling indent value ++ tail := by
  obtain ⟨point, rest, heq, hblank, _, _⟩ := exists_render_head layout indent hvalue
  rw [heq, List.cons_append, skipBlank_cons hblank]

theorem scanOnce_number {spelled tail : Name} (hnumber : NumberText spelled)
    (htail : Delimited tail) (fuel : Nat) :
    scanOnce (fuel + 1) (spelled ++ tail) = some (.num (spelled.map Char.ofNat), tail) := by
  have hscan := hnumber.scan htail
  obtain ⟨point, rest, rfl, hstart⟩ := hnumber.head
  obtain ⟨_, hquote, hopen, _, hbrace, _⟩ := startsScalar_ne hstart
  rw [List.cons_append] at hscan ⊢
  rw [scanOnce, if_neg hquote, if_neg hbrace, if_neg hopen, hscan]

/-- What stands behind an element or a member does not go on with a number. -/
theorem delimited_renderElements (indent closing : Nat) (elements : List (Json Nat))
    (tail : Name) :
    Delimited (renderElements layout spelling indent elements ++
      (layout.closed closing ++ 93 :: tail)) := by
  cases elements with
  | nil => exact layout.delimited_closed closing _ (by decide)
  | cons value others =>
      rw [renderElements_cons]
      exact delimited_cons (by decide) _

theorem delimited_renderMembers (indent closing : Nat) (members : List (Name × Json Nat))
    (tail : Name) :
    Delimited (renderMembers layout spelling indent members ++
      (layout.closed closing ++ 125 :: tail)) := by
  cases members with
  | nil => exact layout.delimited_closed closing _ (by decide)
  | cons first others =>
      rw [renderMembers_cons]
      exact delimited_cons (by decide) _

/-! ## One step of the decoder -/

section Steps

variable {fuel width : Nat} {input more : Name} {value : Json Nat}

/-- An array that has an element. -/
theorem scanOnce_opened (layout : Layout) (width : Nat)
    (hinput : ∃ point rest, input = point :: rest ∧ isBlank point = false ∧ point ≠ 93) :
    scanOnce (fuel + 1) (91 :: (layout.opened width ++ input)) =
      (scanElements fuel input).map fun result => (.arr result.1, result.2) := by
  obtain ⟨point, rest, rfl, hblank, hclose⟩ := hinput
  rw [scanOnce, if_neg (by omega), if_neg (by omega), if_pos rfl, layout.skipBlank_opened,
    skipBlank_cons hblank]
  split
  · rename_i more heq
    exact absurd (List.cons.inj heq).1 hclose
  · rfl

/-- An object that has a member. -/
theorem scanOnce_openedObject (layout : Layout) (width : Nat) (input : Name) :
    scanOnce (fuel + 1) (123 :: (layout.opened width ++ 34 :: input)) =
      (scanMembers fuel (34 :: input)).map fun result => (.obj result.1, result.2) := by
  rw [scanOnce, if_neg (by omega), if_pos rfl, layout.skipBlank_opened, skipBlank_cons rfl]
  rfl

theorem scanElements_final
    (h : scanOnce fuel input = some (value, layout.closed width ++ 93 :: more)) :
    scanElements (fuel + 1) input = some ([value], more) := by
  rw [scanElements, h]
  dsimp only
  rw [layout.skipBlank_closed, skipBlank_cons rfl]
  rfl

theorem scanElements_next
    (h : scanOnce fuel input = some (value, 44 :: (layout.comma width ++ more)))
    (hmore : skipBlank more = more) :
    scanElements (fuel + 1) input =
      (scanElements fuel more).map fun result => (value :: result.1, result.2) := by
  rw [scanElements, h]
  dsimp only
  rw [skipBlank_cons rfl]
  change (scanElements fuel (skipBlank (layout.comma width ++ more))).map _ = _
  rw [layout.skipBlank_comma, hmore]

variable {name : Name} (hstrings : spelling.Readable Strings) (hname : Strings name)
  (hinput : skipBlank input = input)
include hstrings hname hinput

/-- A member, up to its value. -/
theorem scanMembers_key :
    scanMembers (fuel + 1) (34 :: (name.flatMap spelling.point ++ 34 :: 58 :: 32 :: input)) =
      match scanOnce fuel input with
      | none => none
      | some (value, rest) =>
          match skipBlank rest with
          | 44 :: more =>
              (scanMembers fuel (skipBlank more)).map fun result =>
                ((name, value) :: result.1, result.2)
          | 125 :: more => some ([(name, value)], more)
          | _ => none := by
  have hspace : skipBlank (32 :: input) = input := hinput
  rw [scanMembers, hstrings name hname]
  · dsimp only
    rw [skipBlank_cons rfl]
    conv_rhs => rewrite [← hspace]
    rfl
  · rw [List.length_append]
    omega

theorem scanMembers_final
    (h : scanOnce fuel input = some (value, layout.closed width ++ 125 :: more)) :
    scanMembers (fuel + 1) (34 :: (name.flatMap spelling.point ++ 34 :: 58 :: 32 :: input)) =
      some ([(name, value)], more) := by
  rw [scanMembers_key hstrings hname hinput, h]
  dsimp only
  rw [layout.skipBlank_closed, skipBlank_cons rfl]
  rfl

theorem scanMembers_next
    (h : scanOnce fuel input = some (value, 44 :: (layout.comma width ++ 34 :: more))) :
    scanMembers (fuel + 1) (34 :: (name.flatMap spelling.point ++ 34 :: 58 :: 32 :: input)) =
      (scanMembers fuel (34 :: more)).map fun result => ((name, value) :: result.1, result.2) := by
  rw [scanMembers_key hstrings hname hinput, h]
  dsimp only
  rw [skipBlank_cons rfl]
  change (scanMembers fuel (skipBlank (layout.comma width ++ 34 :: more))).map _ = _
  rw [layout.skipBlank_comma, skipBlank_cons rfl]

end Steps

/-! ## The round trip -/

mutual

/-- A printed value is read back in front of what delimits it.  The three statements follow
the three functions of the decoder. -/
theorem scanOnce_render (hstrings : spelling.Readable Strings) :
    (value : Json Nat) → spelling.Spells Strings value → ∀ (indent fuel : Nat) (tail : Name),
      Delimited tail → 2 * (render layout spelling indent value).length ≤ fuel →
      scanOnce fuel (render layout spelling indent value ++ tail) =
        some (respelled spelling.number value, tail)
  | .null, _, _, fuel, tail, _, hfuel => by
      cases fuel with
      | zero => cases hfuel
      | succ fuel => rfl
  | .bool true, _, _, fuel, tail, _, hfuel => by
      cases fuel with
      | zero => cases hfuel
      | succ fuel => rfl
  | .bool false, _, _, fuel, tail, _, hfuel => by
      cases fuel with
      | zero => cases hfuel
      | succ fuel => rfl
  | .num lexeme, hvalue, indent, fuel, tail, htail, hfuel => by
      have hnumber : NumberText (spelling.number lexeme) := hvalue
      obtain ⟨point, rest, heq, _⟩ := hnumber.head
      cases fuel with
      | zero =>
          rw [render, heq, List.length_cons] at hfuel
          omega
      | succ fuel => exact scanOnce_number hnumber htail fuel
  | .str value, hvalue, indent, fuel, tail, _, hfuel => by
      cases fuel with
      | zero =>
          have hlength := congrArg List.length (render_str layout spelling indent [] value)
          rw [List.append_nil, List.length_cons] at hlength
          omega
      | succ fuel =>
          rw [render_str, scanOnce, if_pos rfl, hstrings value hvalue, Option.map_some]
          · rfl
          · rw [List.length_append]
            omega
  | .arr [], _, _, fuel, tail, _, hfuel => by
      cases fuel with
      | zero => cases hfuel
      | succ fuel => rfl
  | .obj [], _, _, fuel, tail, _, hfuel => by
      cases fuel with
      | zero => cases hfuel
      | succ fuel => rfl
  | .arr (first :: others), hvalue, indent, fuel, tail, _, hfuel => by
      obtain ⟨point, rest, hhead, hblank, hclose, _⟩ := exists_render_head layout (indent + 2) hvalue.1
      have htext := render_arr layout spelling indent tail first others
      have hlength := congrArg List.length (render_arr layout spelling indent [] first others)
      simp only [List.length_append, List.length_cons, List.length_nil] at hlength
      cases fuel with
      | zero => omega
      | succ fuel =>
          rw [htext, scanOnce_opened layout (indent + 2) ⟨point, _, by rw [hhead]; rfl, hblank, hclose⟩,
            scanElements_render hstrings (first :: others) hvalue first others rfl (indent + 2)
              indent fuel tail (by omega), Option.map_some]
          rfl
  | .obj ((name, value) :: others), hvalue, indent, fuel, tail, _, hfuel => by
      have htext := render_obj layout spelling indent tail name value others
      have hlength := congrArg List.length (render_obj layout spelling indent [] name value others)
      simp only [List.length_append, List.length_cons, List.length_nil] at hlength
      cases fuel with
      | zero => omega
      | succ fuel =>
          rw [htext, scanOnce_openedObject layout (indent + 2),
            scanMembers_render hstrings ((name, value) :: others) hvalue name value others rfl
              (indent + 2) indent fuel tail (by omega), Option.map_some]
          rfl

theorem scanElements_render (hstrings : spelling.Readable Strings) :
    (elements : List (Json Nat)) →
      HoldsElements Strings (fun lexeme => NumberText (spelling.number lexeme)) elements →
    ∀ (first : Json Nat) (others : List (Json Nat)), elements = first :: others →
    ∀ (indent closing fuel : Nat) (tail : Name),
      2 * ((render layout spelling indent first).length +
        (renderElements layout spelling indent others).length) + 1 ≤ fuel →
      scanElements fuel (render layout spelling indent first ++
        (renderElements layout spelling indent others ++ (layout.closed closing ++ 93 :: tail))) =
        some (respelledElements spelling.number elements, tail)
  | [], _, _, _, h, _, _, _, _, _ => by cases h
  | [value], hvalue, _, _, rfl, indent, closing, fuel, tail, hfuel => by
      cases fuel with
      | zero => omega
      | succ fuel =>
          exact scanElements_final (scanOnce_render hstrings value hvalue.1 indent fuel _
            (delimited_renderElements indent closing [] tail) (by omega))
  | value :: next :: more, hvalue, _, _, rfl, indent, closing, fuel, tail, hfuel => by
      have htext := renderElements_cons layout spelling indent (layout.closed closing ++ 93 :: tail) next more
      have hlength := congrArg List.length (renderElements_cons layout spelling indent [] next more)
      simp only [List.length_append, List.length_cons, List.length_nil] at hlength
      cases fuel with
      | zero => omega
      | succ fuel =>
          have hscan := scanOnce_render hstrings value hvalue.1 indent fuel
            (renderElements layout spelling indent (next :: more) ++ (layout.closed closing ++ 93 :: tail))
            (delimited_renderElements indent closing _ tail) (by omega)
          rw [htext] at hscan ⊢
          rw [scanElements_next hscan (skipBlank_render layout indent _ hvalue.2.1),
            scanElements_render hstrings (next :: more) hvalue.2 next more rfl indent closing fuel
              tail (by omega), Option.map_some]
          rfl

theorem scanMembers_render (hstrings : spelling.Readable Strings) :
    (members : List (Name × Json Nat)) →
      HoldsMembers Strings (fun lexeme => NumberText (spelling.number lexeme)) members →
    ∀ (name : Name) (value : Json Nat) (others : List (Name × Json Nat)),
      members = (name, value) :: others →
    ∀ (indent closing fuel : Nat) (tail : Name),
      2 * ((render layout spelling indent value).length +
        (renderMembers layout spelling indent others).length) + 1 ≤ fuel →
      scanMembers fuel (34 :: (name.flatMap spelling.point ++ 34 :: 58 :: 32 ::
        (render layout spelling indent value ++
          (renderMembers layout spelling indent others ++ (layout.closed closing ++ 125 :: tail))))) =
        some (respelledMembers spelling.number members, tail)
  | [], _, _, _, _, h, _, _, _, _, _ => by cases h
  | [(name, value)], hvalue, _, _, _, rfl, indent, closing, fuel, tail, hfuel => by
      cases fuel with
      | zero => omega
      | succ fuel =>
          exact scanMembers_final hstrings hvalue.1 (skipBlank_render layout indent _ hvalue.2.1)
            (scanOnce_render hstrings value hvalue.2.1 indent fuel _
              (delimited_renderMembers indent closing [] tail) (by omega))
  | (name, value) :: (nextName, next) :: more, hvalue, _, _, _, rfl, indent, closing, fuel, tail,
      hfuel => by
      have htext :=
        renderMembers_cons layout spelling indent (layout.closed closing ++ 125 :: tail) nextName next more
      have hlength := congrArg List.length (renderMembers_cons layout spelling indent [] nextName next more)
      simp only [List.length_append, List.length_cons, List.length_nil] at hlength
      cases fuel with
      | zero => omega
      | succ fuel =>
          have hscan := scanOnce_render hstrings value hvalue.2.1 indent fuel
            (renderMembers layout spelling indent ((nextName, next) :: more) ++
              (layout.closed closing ++ 125 :: tail))
            (delimited_renderMembers indent closing _ tail) (by omega)
          rw [htext] at hscan ⊢
          rw [scanMembers_next hstrings hvalue.1 (skipBlank_render layout indent _ hvalue.2.1) hscan,
            scanMembers_render hstrings ((nextName, next) :: more) hvalue.2.2 nextName next more rfl
              indent closing fuel tail (by omega), Option.map_some]
          rfl

end

theorem delimited_of_skipBlank {tail : Name} (h : skipBlank tail = []) : Delimited tail := by
  intro point hpoint
  have hblank := List.dropWhile_eq_nil_iff.mp h
  exact not_continuesNumber_of_isBlank (hblank point (List.mem_of_mem_head? hpoint))

/-- What is printed is read back, with nothing but white space behind it. -/
theorem loads_render (layout : Layout) (hstrings : spelling.Readable Strings) {value : Json Nat}
    (hvalue : spelling.Spells Strings value) {tail : Name} (htail : skipBlank tail = []) :
    loads (render layout spelling 0 value ++ tail) = some (respelled spelling.number value) := by
  have hdelimited := delimited_of_skipBlank htail
  obtain ⟨point, rest, hhead, _, _, hmark⟩ := exists_render_head layout 0 hvalue
  have hstart : (render layout spelling 0 value ++ tail).head? ≠ some 0xFEFF := by
    rw [hhead, List.cons_append, List.head?_cons, ne_eq, Option.some.injEq]
    exact hmark
  have hfuel : 2 * (render layout spelling 0 value).length ≤
      2 * (render layout spelling 0 value ++ tail).length := by
    rw [List.length_append]
    omega
  rw [loads, if_neg hstart, skipBlank_render layout 0 tail hvalue,
    scanOnce_render hstrings value hvalue 0 _ tail hdelimited hfuel]
  exact if_pos htail

end Reading

/-! ## The code points of a printed document -/

/-- Everything that is written for such strings and numbers has a property. -/
structure Writes (layout : Layout) (spelling : Spelling) (Strings : Name → Prop)
    (Numbers : List Char → Prop) (P : Nat → Prop) : Prop where
  printable : ∀ point, 32 ≤ point → point < 127 → P point
  layout : ∀ indent, ∀ point ∈ layout.opened indent ++ layout.comma indent ++ layout.closed indent,
    P point
  string : ∀ value, Strings value → ∀ point ∈ value.flatMap spelling.point, P point
  number : ∀ lexeme, Numbers lexeme → ∀ point ∈ spelling.number lexeme, P point

section Points

variable {layout : Layout} {spelling : Spelling} {Strings : Name → Prop} {Numbers : List Char → Prop}
  {P : Nat → Prop} (h : Writes layout spelling Strings Numbers P)
include h

/-- The tokens are printable. -/
theorem Writes.token {token : Name} (htoken : (token.all fun point => 32 ≤ point ∧ point < 127) = true) :
    ∀ point ∈ token, P point := by
  intro point hpoint
  have hrange := List.all_eq_true.mp htoken point hpoint
  simp only [Bool.decide_and, Bool.and_eq_true, decide_eq_true_eq] at hrange
  exact h.printable point hrange.1 hrange.2

theorem Writes.quoted {value : Name} (hvalue : Strings value) : ∀ point ∈ spelling.string value, P point := by
  unfold Spelling.string
  simp only [List.forall_mem_append]
  exact ⟨⟨h.token (by decide), h.string value hvalue⟩, h.token (by decide)⟩

theorem Writes.blanks (indent : Nat) : (∀ point ∈ layout.opened indent, P point) ∧
    (∀ point ∈ layout.comma indent, P point) ∧ ∀ point ∈ layout.closed indent, P point := by
  have hall := h.layout indent
  simp only [List.forall_mem_append, and_assoc] at hall
  exact hall

mutual

theorem writes_render (indent : Nat) : (value : Json Nat) → Holds Strings Numbers value →
    ∀ point ∈ render layout spelling indent value, P point
  | .null, _ => by
      rw [render]
      exact h.token (by decide)
  | .bool true, _ => by
      rw [render]
      exact h.token (by decide)
  | .bool false, _ => by
      rw [render]
      exact h.token (by decide)
  | .num lexeme, hvalue => h.number lexeme hvalue
  | .str _, hvalue => h.quoted hvalue
  | .arr [], _ => by
      rw [render]
      exact h.token (by decide)
  | .obj [], _ => by
      rw [render]
      exact h.token (by decide)
  | .arr (first :: rest), hvalue => by
      have hfirst := writes_render (indent + 2) first hvalue.1
      have hrest := writes_renderElements (indent + 2) rest hvalue.2
      rw [render]
      simp only [List.forall_mem_append]
      exact ⟨⟨⟨⟨⟨h.token (by decide), (h.blanks _).1⟩, hfirst⟩, hrest⟩, (h.blanks _).2.2⟩,
        h.token (by decide)⟩
  | .obj ((name, value) :: rest), hvalue => by
      have hmember := writes_render (indent + 2) value hvalue.2.1
      have hrest := writes_renderMembers (indent + 2) rest hvalue.2.2
      rw [render]
      simp only [List.forall_mem_append]
      exact ⟨⟨⟨⟨⟨⟨⟨h.token (by decide), (h.blanks _).1⟩, h.quoted hvalue.1⟩, h.token (by decide)⟩,
        hmember⟩, hrest⟩, (h.blanks _).2.2⟩, h.token (by decide)⟩

theorem writes_renderElements (indent : Nat) : (elements : List (Json Nat)) →
    HoldsElements Strings Numbers elements →
      ∀ point ∈ renderElements layout spelling indent elements, P point
  | [], _ => List.forall_mem_nil _
  | value :: rest, hvalue => by
      have hfirst := writes_render indent value hvalue.1
      have hrest := writes_renderElements indent rest hvalue.2
      rw [renderElements]
      simp only [List.forall_mem_append]
      exact ⟨⟨⟨h.token (by decide), (h.blanks _).2.1⟩, hfirst⟩, hrest⟩

theorem writes_renderMembers (indent : Nat) : (members : List (Name × Json Nat)) →
    HoldsMembers Strings Numbers members →
      ∀ point ∈ renderMembers layout spelling indent members, P point
  | [], _ => List.forall_mem_nil _
  | (name, value) :: rest, hvalue => by
      have hmember := writes_render indent value hvalue.2.1
      have hrest := writes_renderMembers indent rest hvalue.2.2
      rw [renderMembers]
      simp only [List.forall_mem_append]
      exact ⟨⟨⟨⟨⟨h.token (by decide), (h.blanks _).2.1⟩, h.quoted hvalue.1⟩, h.token (by decide)⟩,
        hmember⟩, hrest⟩

end

end Points

mutual

/-- `Holds` is monotone in both properties. -/
theorem Holds.imp {Strings Strings' : Name → Prop} {Numbers Numbers' : List Char → Prop}
    (hstrings : ∀ value, Strings value → Strings' value)
    (hnumbers : ∀ lexeme, Numbers lexeme → Numbers' lexeme) :
    (value : Json Nat) → Holds Strings Numbers value → Holds Strings' Numbers' value
  | .null, h => h
  | .bool _, h => h
  | .num lexeme, h => hnumbers lexeme h
  | .str value, h => hstrings value h
  | .arr elements, h => Holds.impElements hstrings hnumbers elements h
  | .obj members, h => Holds.impMembers hstrings hnumbers members h

theorem Holds.impElements {Strings Strings' : Name → Prop} {Numbers Numbers' : List Char → Prop}
    (hstrings : ∀ value, Strings value → Strings' value)
    (hnumbers : ∀ lexeme, Numbers lexeme → Numbers' lexeme) : (elements : List (Json Nat)) →
      HoldsElements Strings Numbers elements → HoldsElements Strings' Numbers' elements
  | [], _ => trivial
  | value :: rest, h =>
      ⟨Holds.imp hstrings hnumbers value h.1, Holds.impElements hstrings hnumbers rest h.2⟩

theorem Holds.impMembers {Strings Strings' : Name → Prop} {Numbers Numbers' : List Char → Prop}
    (hstrings : ∀ value, Strings value → Strings' value)
    (hnumbers : ∀ lexeme, Numbers lexeme → Numbers' lexeme) : (members : List (Name × Json Nat)) →
      HoldsMembers Strings Numbers members → HoldsMembers Strings' Numbers' members
  | [], _ => trivial
  | (name, value) :: rest, h =>
      ⟨hstrings name h.1, Holds.imp hstrings hnumbers value h.2.1,
        Holds.impMembers hstrings hnumbers rest h.2.2⟩

end

end Icflow.Generate
