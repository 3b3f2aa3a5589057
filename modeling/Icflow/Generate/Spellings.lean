import Icflow.Generate.Rendering

set_option autoImplicit false

/-!
# The two spellings of `json.dumps`

With `ensure_ascii=False` everything above the control characters is written as it is, and
by default everything outside printable ASCII is written by its number, in two units when
it has more than sixteen bits.
-/

namespace Icflow.Generate

open Icflow.Foundation

/-! ## Layouts -/

/-- `indent=2` -/
def indented : Layout where
  opened := newLine
  comma := newLine
  closed := newLine
  blank := by
    intro indent point hpoint
    have hline : ∀ other ∈ newLine indent, isBlank other = true := by
      intro other hother
      rcases List.mem_append.mp hother with hbreak | hspace
      · rw [List.mem_singleton.mp hbreak]
        rfl
      · rw [List.eq_of_mem_replicate hspace]
        rfl
    simp only [List.mem_append, or_self] at hpoint
    exact hline point hpoint

/-- The layout without `indent`. -/
def compact : Layout where
  opened := fun _ => []
  comma := fun _ => text " "
  closed := fun _ => []
  blank := by
    intro indent point hpoint
    rw [List.nil_append, List.append_nil] at hpoint
    rw [List.mem_singleton.mp hpoint]
    rfl

/-! ## `ensure_ascii=False` -/

/-- The spelling of `dumps`. -/
def unicodeSpelling (number : List Char → Name) : Spelling := ⟨escapePoint, number⟩

mutual

theorem render_unicode (number : List Char → Name) (indent : Nat) : (value : Json Nat) →
    render indented (unicodeSpelling number) indent value = dumps number indent value
  | .null => rfl
  | .bool true => rfl
  | .bool false => rfl
  | .num _ => rfl
  | .str _ => rfl
  | .arr [] => rfl
  | .obj [] => rfl
  | .arr (first :: rest) => by
      rw [render, dumps, render_unicode number (indent + 2) first,
        renderElements_unicode number (indent + 2) rest]
      rfl
  | .obj ((name, value) :: rest) => by
      rw [render, dumps, render_unicode number (indent + 2) value,
        renderMembers_unicode number (indent + 2) rest]
      rfl

theorem renderElements_unicode (number : List Char → Name) (indent : Nat) :
    (elements : List (Json Nat)) →
      renderElements indented (unicodeSpelling number) indent elements =
        dumpsElements number indent elements
  | [] => rfl
  | value :: rest => by
      rw [renderElements, dumpsElements, render_unicode number indent value,
        renderElements_unicode number indent rest]
      rfl

theorem renderMembers_unicode (number : List Char → Name) (indent : Nat) :
    (members : List (Name × Json Nat)) →
      renderMembers indented (unicodeSpelling number) indent members =
        dumpsMembers number indent members
  | [] => rfl
  | (name, value) :: rest => by
      rw [renderMembers, dumpsMembers, render_unicode number indent value,
        renderMembers_unicode number indent rest]
      rfl

end

theorem readable_unicode (number : List Char → Name) :
    (unicodeSpelling number).Readable fun _ => True := by
  intro value _ fuel rest hfuel
  apply scanString_flatMap
  refine Nat.lt_of_le_of_lt ?_ hfuel
  clear hfuel
  induction value with
  | nil => exact Nat.zero_le _
  | cons point value ih =>
      have hpoint := List.length_pos_of_ne_nil (escapePoint_ne_nil point)
      rw [List.flatMap_cons, List.length_append, List.length_cons, Nat.add_comm]
      exact Nat.add_le_add hpoint ih

/-! ## `ensure_ascii` -/

/-- `\uXXXX` -/
def unicodeUnit (unit : Nat) : Name :=
  text "\\u" ++ [hexDigit (unit / 4096), hexDigit (unit / 256 % 16), hexDigit (unit / 16 % 16),
    hexDigit (unit % 16)]

/-- A code point, by its number unless it is printable ASCII. -/
def asciiPoint (point : Nat) : Name :=
  match shortEscapes.lookup point with
  | some escape => escape
  | none =>
      if 32 ≤ point ∧ point < 127 then [point]
      else if point < 0x10000 then unicodeUnit point
      else
        unicodeUnit (0xD800 + (point - 0x10000) / 0x400) ++
          unicodeUnit (0xDC00 + (point - 0x10000) % 0x400)

/-- The default spelling. -/
def asciiSpelling (number : List Char → Name) : Spelling := ⟨asciiPoint, number⟩

/-- A code point that is not the first half of a surrogate pair. -/
def IsWhole (point : Nat) : Prop := point < 0x110000 ∧ ¬ (0xD800 ≤ point ∧ point ≤ 0xDBFF)

theorem isWhole_toNat (c : Char) : IsWhole c.toNat := by
  have hvalid : c.toNat < 0xD800 ∨ 0xDFFF < c.toNat ∧ c.toNat < 0x110000 := c.valid
  unfold IsWhole
  omega

theorem hexUnit_unicodeUnit {unit : Nat} (h : unit < 0x10000) (rest : Name) :
    hexUnit (hexDigit (unit / 4096) :: hexDigit (unit / 256 % 16) :: hexDigit (unit / 16 % 16) ::
      hexDigit (unit % 16) :: rest) = some (unit, rest) := by
  rw [hexUnit, hexValue_hexDigit (by omega), hexValue_hexDigit (by omega),
    hexValue_hexDigit (by omega), hexValue_hexDigit (by omega)]
  dsimp only
  rw [show ((unit / 4096 * 16 + unit / 256 % 16) * 16 + unit / 16 % 16) * 16 + unit % 16 = unit by
    omega]

/-- A point of sixteen bits is read back from its unit. -/
theorem scanEscape_unit {unit : Nat} (h : unit < 0x10000) (hwhole : IsWhole unit) (rest : Name) :
    scanEscape (117 :: hexDigit (unit / 4096) :: hexDigit (unit / 256 % 16) ::
      hexDigit (unit / 16 % 16) :: hexDigit (unit % 16) :: rest) = some (unit, rest) := by
  rw [scanEscape, if_pos rfl, unicodeEscape, hexUnit_unicodeUnit h]
  dsimp only
  exact if_neg hwhole.2

/-- A larger one is read back from its two units. -/
theorem scanEscape_pair {high low : Nat} (hhigh : 0xD800 ≤ high ∧ high ≤ 0xDBFF)
    (hlow : 0xDC00 ≤ low ∧ low ≤ 0xDFFF) (rest : Name) :
    scanEscape (117 :: hexDigit (high / 4096) :: hexDigit (high / 256 % 16) ::
      hexDigit (high / 16 % 16) :: hexDigit (high % 16) :: (unicodeUnit low ++ rest)) =
        some (0x10000 + (high - 0xD800) * 0x400 + (low - 0xDC00), rest) := by
  have hunits : unicodeUnit low ++ rest = 92 :: 117 :: hexDigit (low / 4096) ::
      hexDigit (low / 256 % 16) :: hexDigit (low / 16 % 16) :: hexDigit (low % 16) :: rest := rfl
  rw [scanEscape, if_pos rfl, unicodeEscape, hexUnit_unicodeUnit (by omega), hunits]
  dsimp only
  have hsecond := hexUnit_unicodeUnit (show low < 0x10000 by omega) rest
  rw [if_pos hhigh]
  simp only [hsecond]
  exact if_pos hlow

/-- One printed code point is read back. -/
theorem scanString_asciiPoint {point : Nat} (hwhole : IsWhole point) (fuel : Nat) (rest : Name) :
    scanString (fuel + 1) (asciiPoint point ++ rest) =
      (scanString fuel rest).map fun result => (point :: result.1, result.2) := by
  unfold asciiPoint
  cases hlookup : shortEscapes.lookup point with
  | some escape =>
      have hescape : escapePoint point = escape := by rw [escapePoint, hlookup]
      dsimp only
      rw [← hescape]
      exact scanString_escapePoint fuel point rest
  | none =>
      have hunit : ∀ unit : Nat, ∀ more : Name, unicodeUnit unit ++ more =
          92 :: 117 :: hexDigit (unit / 4096) :: hexDigit (unit / 256 % 16) ::
            hexDigit (unit / 16 % 16) :: hexDigit (unit % 16) :: more := fun _ _ => rfl
      dsimp only
      split
      · rename_i hprintable
        have hescape : escapePoint point = [point] := by
          rw [escapePoint, hlookup]
          exact if_neg (Nat.not_lt.mpr hprintable.1)
        rw [← hescape]
        exact scanString_escapePoint fuel point rest
      · split
        · rename_i hsmall
          rw [hunit, scanString, if_neg (by omega), if_neg (by omega), if_pos rfl,
            scanEscape_unit hsmall hwhole]
        · rename_i hlarge
          have hbound := hwhole.1
          rw [List.append_assoc, hunit, scanString, if_neg (by omega), if_neg (by omega), if_pos rfl,
            scanEscape_pair (by omega) (by omega)]
          dsimp only
          rw [show 0x10000 + (0xD800 + (point - 0x10000) / 0x400 - 0xD800) * 0x400 +
            (0xDC00 + (point - 0x10000) % 0x400 - 0xDC00) = point by omega]

theorem asciiPoint_ne_nil (point : Nat) : asciiPoint point ≠ [] := by
  unfold asciiPoint
  cases hlookup : shortEscapes.lookup point with
  | some escape =>
      have hshort : ∀ entry ∈ shortEscapes, entry.2 ≠ [] := by decide
      exact hshort _ (mem_shortEscapes hlookup)
  | none =>
      dsimp only
      split
      · exact List.cons_ne_nil _ _
      · split
        · exact List.cons_ne_nil _ _
        · exact List.cons_ne_nil _ _

/-- A text without first halves of surrogate pairs is read back. -/
theorem readable_ascii (number : List Char → Name) :
    (asciiSpelling number).Readable fun value => ∀ point ∈ value, IsWhole point := by
  intro value hvalue
  induction value with
  | nil =>
      intro fuel rest hfuel
      cases fuel with
      | zero => cases hfuel
      | succ fuel => rfl
  | cons point value ih =>
      intro fuel rest hfuel
      obtain ⟨hpoint, hrest⟩ := List.forall_mem_cons.mp hvalue
      have hlength := List.length_pos_of_ne_nil (asciiPoint_ne_nil point)
      rw [List.flatMap_cons, List.length_append] at hfuel
      have hspelled : (asciiSpelling number).point point = asciiPoint point := rfl
      rw [hspelled] at hfuel
      cases fuel with
      | zero => cases hfuel
      | succ fuel =>
          rw [List.flatMap_cons, List.append_assoc, hspelled, scanString_asciiPoint hpoint,
            ih hrest fuel rest (by omega), Option.map_some]

/-! ## Nothing but ASCII -/

/-- All code points are ASCII. -/
def AsciiPoints (content : Name) : Prop := ∀ point ∈ content, point < 128

instance decidableAsciiPoints (content : Name) : Decidable (AsciiPoints content) :=
  inferInstanceAs (Decidable (∀ point ∈ content, point < 128))

theorem asciiPoints_append {first second : Name} :
    AsciiPoints (first ++ second) ↔ AsciiPoints first ∧ AsciiPoints second := List.forall_mem_append

theorem hexDigit_lt {digit : Nat} (h : digit < 16) : hexDigit digit < 128 := by
  unfold hexDigit
  split
  · omega
  · omega

theorem asciiPoints_unicodeUnit {unit : Nat} (h : unit < 0x10000) :
    AsciiPoints (unicodeUnit unit) := by
  have hstart : AsciiPoints (text "\\u") := by decide
  refine asciiPoints_append.mpr ⟨hstart, ?_⟩
  intro point hpoint
  simp only [List.mem_cons, List.not_mem_nil, or_false] at hpoint
  rcases hpoint with rfl | rfl | rfl | rfl
  · exact hexDigit_lt (by omega)
  · exact hexDigit_lt (by omega)
  · exact hexDigit_lt (by omega)
  · exact hexDigit_lt (by omega)

theorem asciiPoints_asciiPoint {point : Nat} (h : point < 0x110000) :
    AsciiPoints (asciiPoint point) := by
  unfold asciiPoint
  cases hlookup : shortEscapes.lookup point with
  | some escape =>
      have hshort : ∀ entry ∈ shortEscapes, ∀ other ∈ entry.2, other < 128 := by decide
      exact hshort _ (mem_shortEscapes hlookup)
  | none =>
      dsimp only
      split
      · rename_i hprintable
        intro other hother
        rw [List.mem_singleton.mp hother]
        omega
      · split
        · rename_i hsmall
          exact asciiPoints_unicodeUnit hsmall
        · exact asciiPoints_append.mpr
            ⟨asciiPoints_unicodeUnit (by omega), asciiPoints_unicodeUnit (by omega)⟩

theorem writes_ascii (layout : Layout) (number : List Char → Name) :
    Writes layout (asciiSpelling number) (fun value => ∀ point ∈ value, point < 0x110000)
      (fun lexeme => AsciiPoints (number lexeme)) fun point => point < 128 where
  printable := by
    intro point _ hpoint
    omega
  layout := by
    intro indent point hpoint
    have hblank := layout.blank indent point hpoint
    simp only [isBlank, Bool.or_eq_true, beq_iff_eq] at hblank
    omega
  string := by
    intro value hvalue other hother
    obtain ⟨point, hpoint, hmem⟩ := List.mem_flatMap.mp hother
    exact asciiPoints_asciiPoint (hvalue point hpoint) other hmem
  number := fun _ h => h

/-- By default a document is printed in ASCII. -/
theorem asciiPoints_render (layout : Layout) (number : List Char → Name) (indent : Nat)
    {value : Json Nat} (h : Holds (fun value => ∀ point ∈ value, point < 0x110000)
      (fun lexeme => AsciiPoints (number lexeme)) value) :
    AsciiPoints (render layout (asciiSpelling number) indent value) :=
  writes_render (writes_ascii layout number) indent value h

end Icflow.Generate
