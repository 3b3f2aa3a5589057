import Icflow.Generate.Results
import Mathlib.Data.List.TakeWhile

set_option autoImplicit false

/-!
# `json.loads`

Python's decoder on a text of code points, lone surrogates included.  The decoder calls
itself with less fuel; a call either consumes a character or is the first element or
member of what has just been opened, so twice the length of the text is enough.
-/

namespace Icflow.Generate

open Icflow.Foundation

/-! ## The decoder -/

/-- `WHITESPACE_STR` -/
def isBlank (point : Nat) : Bool := point == 32 || point == 9 || point == 10 || point == 13

/-- What follows the white space. -/
def skipBlank (input : Name) : Name := input.dropWhile isBlank

/-- A hexadecimal digit. -/
def hexValue (point : Nat) : Option Nat :=
  if 48 ≤ point ∧ point ≤ 57 then some (point - 48)
  else if 97 ≤ point ∧ point ≤ 102 then some (point - 87)
  else if 65 ≤ point ∧ point ≤ 70 then some (point - 55)
  else none

/-- `_decode_uXXXX` -/
def hexUnit : Name → Option (Nat × Name)
  | a :: b :: c :: d :: rest =>
      match hexValue a, hexValue b, hexValue c, hexValue d with
      | some a, some b, some c, some d => some (((a * 16 + b) * 16 + c) * 16 + d, rest)
      | _, _, _, _ => none
  | _ => none

/-- The escapes of one letter, with what they stand for. -/
def backslashEscapes : List (Nat × Nat) :=
  [(34, 34), (92, 92), (47, 47), (98, 8), (102, 12), (110, 10), (114, 13), (116, 9)]

/-- What follows the `u` of an escape; a high surrogate takes the low one behind it. -/
def unicodeEscape (input : Name) : Option (Nat × Name) :=
  match hexUnit input with
  | none => none
  | some (unit, rest) =>
      if 0xD800 ≤ unit ∧ unit ≤ 0xDBFF then
        match rest with
        | 92 :: 117 :: more =>
            match hexUnit more with
            | none => none
            | some (low, rest') =>
                if 0xDC00 ≤ low ∧ low ≤ 0xDFFF then
                  some (0x10000 + (unit - 0xD800) * 0x400 + (low - 0xDC00), rest')
                else some (unit, rest)
        | _ => some (unit, rest)
      else some (unit, rest)

/-- What follows a backslash. -/
def scanEscape : Name → Option (Nat × Name)
  | [] => none
  | letter :: rest =>
      if letter = 117 then unicodeEscape rest
      else (backslashEscapes.lookup letter).map fun point => (point, rest)

/-- `scanstring`, behind the opening quote -/
def scanString : Nat → Name → Option (Name × Name)
  | 0, _ | _, [] => none
  | fuel + 1, point :: rest =>
      if point = 34 then some ([], rest)
      else if point < 32 then none
      else if point = 92 then
        match scanEscape rest with
        | none => none
        | some (point, rest) =>
            (scanString fuel rest).map fun result => (point :: result.1, result.2)
      else (scanString fuel rest).map fun result => (point :: result.1, result.2)

/-- A decimal digit. -/
def isDigit (point : Nat) : Bool := 48 ≤ point && point ≤ 57

/-- `0|[1-9][0-9]*` -/
def scanInteger : Name → Option (Name × Name)
  | [] => none
  | point :: rest =>
      if point = 48 then some ([point], rest)
      else if isDigit point then some (point :: rest.takeWhile isDigit, rest.dropWhile isDigit)
      else none

/-- `(\.[0-9]+)?` -/
def scanFraction (input : Name) : Name × Name :=
  let digits := input.tail.takeWhile isDigit
  if input.head? = some 46 ∧ digits ≠ [] then (46 :: digits, input.tail.dropWhile isDigit)
  else ([], input)

/-- `([eE][-+]?[0-9]+)?` -/
def scanExponent (input : Name) : Name × Name :=
  match input with
  | [] => ([], input)
  | letter :: rest =>
      let sign := if rest.head? = some 43 ∨ rest.head? = some 45 then rest.take 1 else []
      let rest := rest.drop sign.length
      let digits := rest.takeWhile isDigit
      if (letter = 101 ∨ letter = 69) ∧ digits ≠ [] then
        (letter :: (sign ++ digits), rest.dropWhile isDigit)
      else ([], input)

/-- `NUMBER_RE`; the value keeps its spelling. -/
def scanNumber (input : Name) : Option (Json Nat × Name) :=
  let sign := if input.head? = some 45 then [45] else []
  match scanInteger (input.drop sign.length) with
  | none => none
  | some (integer, rest) =>
      let fraction := scanFraction rest
      let exponent := scanExponent fraction.2
      some (.num ((sign ++ integer ++ fraction.1 ++ exponent.1).map Char.ofNat), exponent.2)

/-- The constants, with what is read for them. -/
def constants : List (Name × Json Nat) :=
  [(text "null", .null), (text "true", .bool true), (text "false", .bool false),
    (text "NaN", .num "NaN".toList), (text "Infinity", .num "Infinity".toList),
    (text "-Infinity", .num "-Infinity".toList)]

/-- A constant or a number. -/
def scanScalar (input : Name) : Option (Json Nat × Name) :=
  match constants.find? fun constant => constant.1.isPrefixOf input with
  | some constant => some (constant.2, input.drop constant.1.length)
  | none => scanNumber input

mutual

/-- `scan_once` -/
def scanOnce : Nat → Name → Option (Json Nat × Name)
  | 0, _ | _, [] => none
  | fuel + 1, point :: rest =>
      if point = 34 then
        (scanString (rest.length + 1) rest).map fun result => (.str result.1, result.2)
      else if point = 123 then
        match skipBlank rest with
        | 125 :: more => some (.obj [], more)
        | members =>
            (scanMembers fuel members).map fun result => (.obj result.1, result.2)
      else if point = 91 then
        match skipBlank rest with
        | 93 :: more => some (.arr [], more)
        | elements =>
            (scanElements fuel elements).map fun result => (.arr result.1, result.2)
      else scanScalar (point :: rest)

/-- `JSONArray`, from an element on -/
def scanElements : Nat → Name → Option (List (Json Nat) × Name)
  | 0, _ => none
  | fuel + 1, input =>
      match scanOnce fuel input with
      | none => none
      | some (value, rest) =>
          match skipBlank rest with
          | 44 :: more =>
              (scanElements fuel (skipBlank more)).map fun result =>
                (value :: result.1, result.2)
          | 93 :: more => some ([value], more)
          | _ => none

/-- `JSONObject`, from the name of a member on -/
def scanMembers : Nat → Name → Option (List (Name × Json Nat) × Name)
  | fuel + 1, 34 :: input =>
      match scanString (input.length + 1) input with
      | none => none
      | some (name, rest) =>
          match skipBlank rest with
          | 58 :: more =>
              match scanOnce fuel (skipBlank more) with
              | none => none
              | some (value, rest) =>
                  match skipBlank rest with
                  | 44 :: more =>
                      (scanMembers fuel (skipBlank more)).map fun result =>
                        ((name, value) :: result.1, result.2)
                  | 125 :: more => some ([(name, value)], more)
                  | _ => none
          | _ => none
  | _, _ => none

end

/-- `json.loads`; `none` is a `JSONDecodeError`. -/
def loads (input : Name) : Option (Json Nat) :=
  if input.head? = some 0xFEFF then none
  else
    match scanOnce (2 * input.length) (skipBlank input) with
    | none => none
    | some (value, rest) => if skipBlank rest = [] then some value else none

/-! ## Reading back what was printed -/

mutual

/-- No number occurs in the value. -/
def NumberFree : Json Nat → Prop
  | .null | .bool _ | .str _ => True
  | .num _ => False
  | .arr elements => NumberFreeElements elements
  | .obj members => NumberFreeMembers members

/-- `NumberFree` on the elements of an array. -/
def NumberFreeElements : List (Json Nat) → Prop
  | [] => True
  | value :: rest => NumberFree value ∧ NumberFreeElements rest

/-- `NumberFree` on the members of an object. -/
def NumberFreeMembers : List (Name × Json Nat) → Prop
  | [] => True
  | (_, value) :: rest => NumberFree value ∧ NumberFreeMembers rest

end

theorem skipBlank_cons {point : Nat} (h : isBlank point = false) (rest : Name) :
    skipBlank (point :: rest) = point :: rest := by
  rw [skipBlank, List.dropWhile_cons, h]
  rfl

theorem skipBlank_newLine (indent : Nat) (rest : Name) :
    skipBlank (newLine indent ++ rest) = skipBlank rest := by
  have hblank : ∀ point ∈ newLine indent, isBlank point = true := by
    intro point hpoint
    rcases List.mem_append.mp hpoint with hbreak | hspace
    · rw [List.mem_singleton.mp hbreak]
      rfl
    · rw [List.eq_of_mem_replicate hspace]
      rfl
  exact List.dropWhile_append_of_pos hblank

theorem hexValue_hexDigit {digit : Nat} (h : digit < 16) :
    hexValue (hexDigit digit) = some digit := by
  rw [hexValue, hexDigit]
  split
  · rw [if_pos (by omega), Nat.add_sub_cancel_left]
  · rw [if_neg (by omega), if_pos (by omega), Nat.add_sub_cancel_left]

/-- A control character is read back from its number. -/
theorem scanEscape_control {point : Nat} (h : point < 32) (rest : Name) :
    scanEscape (117 :: 48 :: 48 :: hexDigit (point / 16) :: hexDigit (point % 16) :: rest) =
      some (point, rest) := by
  have hzero : hexValue 48 = some 0 := rfl
  have hhigh : hexValue (hexDigit (point / 16)) = some (point / 16) :=
    hexValue_hexDigit (by omega)
  have hlow : hexValue (hexDigit (point % 16)) = some (point % 16) :=
    hexValue_hexDigit (by omega)
  have hunit : hexUnit (48 :: 48 :: hexDigit (point / 16) :: hexDigit (point % 16) :: rest) =
      some (point, rest) := by
    simp only [hexUnit, hzero, hhigh, hlow]
    rw [show ((0 * 16 + 0) * 16 + point / 16) * 16 + point % 16 = point by omega]
  rw [scanEscape, if_pos rfl, unicodeEscape, hunit]
  dsimp only
  rw [if_neg (by omega)]

/-- One printed code point is read back. -/
theorem scanString_escapePoint (fuel point : Nat) (rest : Name) :
    scanString (fuel + 1) (escapePoint point ++ rest) =
      (scanString fuel rest).map fun result => (point :: result.1, result.2) := by
  unfold escapePoint
  cases hlookup : shortEscapes.lookup point with
  | some escape =>
      have hshort : ∀ entry ∈ shortEscapes, entry.2 = [92, entry.2.getD 1 0] ∧
          entry.2.getD 1 0 ≠ 117 ∧ backslashEscapes.lookup (entry.2.getD 1 0) = some entry.1 := by
        decide
      obtain ⟨hspelling, hunicode, hletter⟩ := hshort _ (mem_shortEscapes hlookup)
      dsimp only at hspelling hunicode hletter ⊢
      generalize escape.getD 1 0 = letter at hspelling hunicode hletter
      rw [hspelling]
      simp [scanString, scanEscape, hunicode, hletter]
  | none =>
      have hquote : point ≠ 34 := fun heq => by simp [heq, shortEscapes] at hlookup
      have hslash : point ≠ 92 := fun heq => by simp [heq, shortEscapes] at hlookup
      dsimp only
      by_cases hcontrol : point < 32
      · have hescape : text "\\u00" = [92, 117, 48, 48] := rfl
        rw [if_pos hcontrol, hescape]
        simp [scanString, scanEscape_control hcontrol]
      · rw [if_neg hcontrol, List.singleton_append, scanString, if_neg hquote, if_neg hcontrol,
          if_neg hslash]

/-- A printed string is read back. -/
theorem scanString_flatMap (value : Name) :
    ∀ (fuel : Nat) (rest : Name), value.length < fuel →
      scanString fuel (value.flatMap escapePoint ++ 34 :: rest) = some (value, rest) := by
  induction value with
  | nil =>
      intro fuel rest hfuel
      cases fuel with
      | zero => cases hfuel
      | succ fuel => rfl
  | cons point value ih =>
      intro fuel rest hfuel
      rw [List.length_cons] at hfuel
      cases fuel with
      | zero => cases hfuel
      | succ fuel =>
          rw [List.flatMap_cons, List.append_assoc, scanString_escapePoint,
            ih fuel rest (by omega), Option.map_some]

theorem escapePoint_ne_nil (point : Nat) : escapePoint point ≠ [] := by
  unfold escapePoint
  cases hlookup : shortEscapes.lookup point with
  | some escape =>
      have hshort : ∀ entry ∈ shortEscapes, entry.2 ≠ [] := by decide
      exact hshort _ (mem_shortEscapes hlookup)
  | none =>
      dsimp only
      split <;> simp

/-- The text behind the opening quote is long enough as fuel. -/
theorem scanString_dumpsString (value rest : Name) :
    scanString ((value.flatMap escapePoint ++ 34 :: rest).length + 1)
      (value.flatMap escapePoint ++ 34 :: rest) = some (value, rest) := by
  have hlength : value.length ≤ (value.flatMap escapePoint).length := by
    induction value with
    | nil => exact Nat.zero_le _
    | cons point value ih =>
        have hpos := List.length_pos_of_ne_nil (escapePoint_ne_nil point)
        rw [List.flatMap_cons, List.length_append, List.length_cons]
        omega
  rw [scanString_flatMap]
  rw [List.length_append]
  omega

/-! ## The round trip -/

section RoundTrip

variable (number : List Char → Name) (indent : Nat) (tail : Name)

theorem dumps_arr (first : Json Nat) (others : List (Json Nat)) :
    dumps number indent (.arr (first :: others)) ++ tail =
      91 :: (newLine (indent + 2) ++ (dumps number (indent + 2) first ++
        (dumpsElements number (indent + 2) others ++ (newLine indent ++ 93 :: tail)))) := by
  rw [dumps]
  simp only [List.append_assoc]
  rfl

theorem dumps_obj (name : Name) (value : Json Nat) (others : List (Name × Json Nat)) :
    dumps number indent (.obj ((name, value) :: others)) ++ tail =
      123 :: (newLine (indent + 2) ++ 34 :: (name.flatMap escapePoint ++ 34 :: 58 :: 32 ::
        (dumps number (indent + 2) value ++
          (dumpsMembers number (indent + 2) others ++ (newLine indent ++ 125 :: tail))))) := by
  rw [dumps, dumpsString]
  simp only [List.append_assoc]
  rfl

theorem dumpsElements_cons (value : Json Nat) (others : List (Json Nat)) :
    dumpsElements number indent (value :: others) ++ tail =
      44 :: (newLine indent ++ (dumps number indent value ++
        (dumpsElements number indent others ++ tail))) := by
  rw [dumpsElements]
  simp only [List.append_assoc]
  rfl

theorem dumpsMembers_cons (name : Name) (value : Json Nat) (others : List (Name × Json Nat)) :
    dumpsMembers number indent ((name, value) :: others) ++ tail =
      44 :: (newLine indent ++ 34 :: (name.flatMap escapePoint ++ 34 :: 58 :: 32 ::
        (dumps number indent value ++ (dumpsMembers number indent others ++ tail)))) := by
  rw [dumpsMembers, dumpsString]
  simp only [List.append_assoc]
  rfl

/-- A printed value neither starts with white space nor ends an array. -/
theorem exists_dumps_head {value : Json Nat} (hvalue : NumberFree value) :
    ∃ point rest, dumps number indent value = point :: rest ∧ isBlank point = false ∧
      point ≠ 93 ∧ point ≠ 0xFEFF := by
  cases value with
  | null => exact ⟨110, _, rfl, rfl, by omega, by omega⟩
  | bool value =>
      cases value with
      | true => exact ⟨116, _, rfl, rfl, by omega, by omega⟩
      | false => exact ⟨102, _, rfl, rfl, by omega, by omega⟩
  | num lexeme => exact hvalue.elim
  | str value => exact ⟨34, _, rfl, rfl, by omega, by omega⟩
  | arr elements =>
      cases elements with
      | nil => exact ⟨91, _, rfl, rfl, by omega, by omega⟩
      | cons first others => exact ⟨91, _, rfl, rfl, by omega, by omega⟩
  | obj members =>
      cases members with
      | nil => exact ⟨123, _, rfl, rfl, by omega, by omega⟩
      | cons first others => exact ⟨123, _, rfl, rfl, by omega, by omega⟩

theorem skipBlank_dumps {value : Json Nat} (hvalue : NumberFree value) :
    skipBlank (dumps number indent value ++ tail) = dumps number indent value ++ tail := by
  obtain ⟨point, rest, heq, hblank, _, _⟩ := exists_dumps_head number indent hvalue
  rw [heq, List.cons_append, skipBlank_cons hblank]

variable {number indent tail}

/-- An array that has an element. -/
theorem scanOnce_array {fuel : Nat} {input : Name} (width : Nat)
    (hinput : ∃ point rest, input = point :: rest ∧ isBlank point = false ∧ point ≠ 93) :
    scanOnce (fuel + 1) (91 :: (newLine width ++ input)) =
      (scanElements fuel input).map fun result => (.arr result.1, result.2) := by
  obtain ⟨point, rest, rfl, hblank, hclose⟩ := hinput
  rw [scanOnce, if_neg (by omega), if_neg (by omega), if_pos rfl, skipBlank_newLine,
    skipBlank_cons hblank]
  split
  · rename_i more heq
    exact absurd (List.cons.inj heq).1 hclose
  · rfl

/-- An object that has a member. -/
theorem scanOnce_object {fuel : Nat} (input : Name) (width : Nat) :
    scanOnce (fuel + 1) (123 :: (newLine width ++ 34 :: input)) =
      (scanMembers fuel (34 :: input)).map fun result => (.obj result.1, result.2) := by
  rw [scanOnce, if_neg (by omega), if_pos rfl, skipBlank_newLine, skipBlank_cons rfl]
  rfl

section Elements

variable {fuel width : Nat} {input more : Name} {value : Json Nat}

theorem scanElements_last (h : scanOnce fuel input = some (value, newLine width ++ 93 :: more)) :
    scanElements (fuel + 1) input = some ([value], more) := by
  rw [scanElements, h]
  dsimp only
  rw [skipBlank_newLine, skipBlank_cons rfl]
  rfl

theorem scanElements_more (h : scanOnce fuel input = some (value, 44 :: (newLine width ++ more)))
    (hmore : skipBlank more = more) :
    scanElements (fuel + 1) input =
      (scanElements fuel more).map fun result => (value :: result.1, result.2) := by
  rw [scanElements, h]
  dsimp only
  rw [skipBlank_cons rfl]
  change (scanElements fuel (skipBlank (newLine width ++ more))).map _ = _
  rw [skipBlank_newLine, hmore]

/-- A member, up to its value. -/
theorem scanMembers_name (name : Name) (hinput : skipBlank input = input) :
    scanMembers (fuel + 1) (34 :: (name.flatMap escapePoint ++ 34 :: 58 :: 32 :: input)) =
      match scanOnce fuel input with
      | none => none
      | some (value, rest) =>
          match skipBlank rest with
          | 44 :: more =>
              (scanMembers fuel (skipBlank more)).map fun result =>
                ((name, value) :: result.1, result.2)
          | 125 :: more => some ([(name, value)], more)
          | _ => none := by
  have hspace : skipBlank (32 :: input) = input := hinput
  rw [scanMembers, scanString_dumpsString]
  dsimp only
  rw [skipBlank_cons rfl]
  simp only [hspace]

theorem scanMembers_last {name : Name} (hinput : skipBlank input = input)
    (h : scanOnce fuel input = some (value, newLine width ++ 125 :: more)) :
    scanMembers (fuel + 1) (34 :: (name.flatMap escapePoint ++ 34 :: 58 :: 32 :: input)) =
      some ([(name, value)], more) := by
  rw [scanMembers_name name hinput, h]
  dsimp only
  rw [skipBlank_newLine, skipBlank_cons rfl]
  rfl

theorem scanMembers_more {name : Name} (hinput : skipBlank input = input)
    (h : scanOnce fuel input = some (value, 44 :: (newLine width ++ 34 :: more))) :
    scanMembers (fuel + 1) (34 :: (name.flatMap escapePoint ++ 34 :: 58 :: 32 :: input)) =
      (scanMembers fuel (34 :: more)).map fun result => ((name, value) :: result.1, result.2) := by
  rw [scanMembers_name name hinput, h]
  dsimp only
  rw [skipBlank_cons rfl]
  change (scanMembers fuel (skipBlank (newLine width ++ 34 :: more))).map _ = _
  rw [skipBlank_newLine, skipBlank_cons rfl]

end Elements

mutual

/-- A printed value is read back, whatever follows.  The three statements follow the three
functions of the decoder. -/
theorem scanOnce_dumps (number : List Char → Name) :
    (value : Json Nat) → NumberFree value → ∀ (indent fuel : Nat) (tail : Name),
      2 * (dumps number indent value).length ≤ fuel →
      scanOnce fuel (dumps number indent value ++ tail) = some (value, tail)
  | .null, _, _, fuel, tail, hfuel => by
      cases fuel with
      | zero => cases hfuel
      | succ fuel => rfl
  | .bool true, _, _, fuel, tail, hfuel => by
      cases fuel with
      | zero => cases hfuel
      | succ fuel => rfl
  | .bool false, _, _, fuel, tail, hfuel => by
      cases fuel with
      | zero => cases hfuel
      | succ fuel => rfl
  | .num _, hvalue, _, _, _, _ => hvalue.elim
  | .str value, _, indent, fuel, tail, hfuel => by
      have htext : dumps number indent (.str value) ++ tail =
          34 :: (value.flatMap escapePoint ++ 34 :: tail) := by
        rw [dumps, dumpsString]
        simp only [List.append_assoc]
        rfl
      cases fuel with
      | zero => cases hfuel
      | succ fuel => rw [htext, scanOnce, if_pos rfl, scanString_dumpsString, Option.map_some]
  | .arr [], _, _, fuel, tail, hfuel => by
      cases fuel with
      | zero => cases hfuel
      | succ fuel => rfl
  | .obj [], _, _, fuel, tail, hfuel => by
      cases fuel with
      | zero => cases hfuel
      | succ fuel => rfl
  | .arr (first :: others), hvalue, indent, fuel, tail, hfuel => by
      obtain ⟨point, rest, hhead, hblank, hclose, _⟩ :=
        exists_dumps_head number (indent + 2) hvalue.1
      have htext := dumps_arr number indent tail first others
      have hlength := congrArg List.length (dumps_arr number indent [] first others)
      simp only [List.length_append, List.length_cons, List.length_nil] at hlength
      cases fuel with
      | zero => omega
      | succ fuel =>
          rw [htext, scanOnce_array (indent + 2) ⟨point, _, by rw [hhead]; rfl, hblank, hclose⟩,
            scanElements_dumps number (first :: others) hvalue first others rfl (indent + 2) indent
              fuel tail (by omega), Option.map_some]
  | .obj ((name, value) :: others), hvalue, indent, fuel, tail, hfuel => by
      have htext := dumps_obj number indent tail name value others
      have hlength := congrArg List.length (dumps_obj number indent [] name value others)
      simp only [List.length_append, List.length_cons, List.length_nil] at hlength
      cases fuel with
      | zero => omega
      | succ fuel =>
          rw [htext, scanOnce_object _ (indent + 2),
            scanMembers_dumps number ((name, value) :: others) hvalue name value others rfl
              (indent + 2) indent fuel tail (by omega), Option.map_some]

theorem scanElements_dumps (number : List Char → Name) :
    (elements : List (Json Nat)) → NumberFreeElements elements →
    ∀ (first : Json Nat) (others : List (Json Nat)), elements = first :: others →
    ∀ (indent closing fuel : Nat) (tail : Name),
      2 * ((dumps number indent first).length + (dumpsElements number indent others).length) + 1 ≤
        fuel →
      scanElements fuel (dumps number indent first ++
        (dumpsElements number indent others ++ (newLine closing ++ 93 :: tail))) =
        some (elements, tail)
  | [], _, _, _, h, _, _, _, _, _ => by cases h
  | [value], hvalue, _, _, rfl, indent, closing, fuel, tail, hfuel => by
      cases fuel with
      | zero => omega
      | succ fuel =>
          exact scanElements_last (scanOnce_dumps number value hvalue.1 indent fuel _ (by omega))
  | value :: next :: more, hvalue, _, _, rfl, indent, closing, fuel, tail, hfuel => by
      have htext := dumpsElements_cons number indent (newLine closing ++ 93 :: tail) next more
      have hlength := congrArg List.length (dumpsElements_cons number indent [] next more)
      simp only [List.length_append, List.length_cons, List.length_nil] at hlength
      cases fuel with
      | zero => omega
      | succ fuel =>
          have hscan := scanOnce_dumps number value hvalue.1 indent fuel
            (dumpsElements number indent (next :: more) ++ (newLine closing ++ 93 :: tail))
            (by omega)
          rw [htext] at hscan ⊢
          rw [scanElements_more hscan (skipBlank_dumps number indent _ hvalue.2.1),
            scanElements_dumps number (next :: more) hvalue.2 next more rfl indent closing fuel tail
              (by omega), Option.map_some]

theorem scanMembers_dumps (number : List Char → Name) :
    (members : List (Name × Json Nat)) → NumberFreeMembers members →
    ∀ (name : Name) (value : Json Nat) (others : List (Name × Json Nat)),
      members = (name, value) :: others →
    ∀ (indent closing fuel : Nat) (tail : Name),
      2 * ((dumps number indent value).length + (dumpsMembers number indent others).length) + 1 ≤
        fuel →
      scanMembers fuel (34 :: (name.flatMap escapePoint ++ 34 :: 58 :: 32 ::
        (dumps number indent value ++
          (dumpsMembers number indent others ++ (newLine closing ++ 125 :: tail))))) =
        some (members, tail)
  | [], _, _, _, _, h, _, _, _, _, _ => by cases h
  | [(name, value)], hvalue, _, _, _, rfl, indent, closing, fuel, tail, hfuel => by
      cases fuel with
      | zero => omega
      | succ fuel =>
          exact scanMembers_last (skipBlank_dumps number indent _ hvalue.1)
            (scanOnce_dumps number value hvalue.1 indent fuel _ (by omega))
  | (name, value) :: (nextName, next) :: more, hvalue, _, _, _, rfl, indent, closing, fuel, tail,
      hfuel => by
      have htext :=
        dumpsMembers_cons number indent (newLine closing ++ 125 :: tail) nextName next more
      have hlength := congrArg List.length (dumpsMembers_cons number indent [] nextName next more)
      simp only [List.length_append, List.length_cons, List.length_nil] at hlength
      cases fuel with
      | zero => omega
      | succ fuel =>
          have hscan := scanOnce_dumps number value hvalue.1 indent fuel
            (dumpsMembers number indent ((nextName, next) :: more) ++
              (newLine closing ++ 125 :: tail)) (by omega)
          rw [htext] at hscan ⊢
          rw [scanMembers_more (skipBlank_dumps number indent _ hvalue.1) hscan,
            scanMembers_dumps number ((nextName, next) :: more) hvalue.2 nextName next more rfl
              indent closing fuel tail (by omega), Option.map_some]

end

/-- The round trip: what `json.dumps` prints for a value without numbers is read back. -/
theorem loads_dumps (number : List Char → Name) {value : Json Nat} (hvalue : NumberFree value) :
    loads (dumps number 0 value) = some value := by
  obtain ⟨point, rest, hhead, _, _, hmark⟩ := exists_dumps_head number 0 hvalue
  have hstart : (dumps number 0 value).head? ≠ some 0xFEFF := by
    rw [hhead, List.head?_cons, ne_eq, Option.some.injEq]
    exact hmark
  have hscan := scanOnce_dumps number value hvalue 0 _ [] (Nat.le_refl _)
  have hskip := skipBlank_dumps number 0 [] hvalue
  rw [List.append_nil] at hscan hskip
  rw [loads, if_neg hstart, hskip, hscan]
  rfl

end RoundTrip

end Icflow.Generate
