import Icflow.Compare.Agreement
import Icflow.Compare.Exactness
import Icflow.Generate.Spellings

set_option autoImplicit false

/-!
# The report of a comparison

What `main` prints and writes: the summary of `compare_pair_sets` with the names of the
files of both runs, as `json.dumps(summary, indent=2)`.  The text is ASCII whatever the names
are, and reads back as the report, so that two comparisons with one text are one comparison.
-/

namespace Icflow.Compare

open Icflow.Foundation
open Icflow.Generate (Name text countText)
open Icflow.Generate

/-- The summary with the files of both runs. -/
structure Report where
  summary : PairSummary
  baselineFiles : List (List Char)
  candidateFiles : List (List Char)
  deriving DecidableEq, Repr

/-- A number of the report. -/
def countValue (count : Nat) : Json Nat := .num (countText count)

/-- A string of the report. -/
def stringValue (characters : List Char) : Json Nat := .str (pyStr characters)

/-- One entry of `new_pair_examples`. -/
def exampleValue (shown : PairExample) : Json Nat :=
  .obj [(text "binary", stringValue shown.binary), (text "call_site", stringValue shown.callSite),
    (text "target", stringValue shown.target)]

/-- The dictionary `main` prints. -/
def reportValue (report : Report) : Json Nat :=
  .obj [(text "baseline_pair_count", countValue report.summary.baselinePairCount),
    (text "candidate_pair_count", countValue report.summary.candidatePairCount),
    (text "new_pair_count", countValue report.summary.newPairCount),
    (text "union_pair_count", countValue report.summary.unionPairCount),
    (text "baseline_pairs_not_replayed", countValue report.summary.baselinePairsNotReplayed),
    (text "new_pair_examples", .arr (report.summary.newPairExamples.map exampleValue)),
    (text "baseline_files", .arr (report.baselineFiles.map stringValue)),
    (text "candidate_files", .arr (report.candidateFiles.map stringValue))]

/-- Python prints a count with its decimal digits. -/
def reportSpelling : Spelling := asciiSpelling pyStr

/-- `json.dumps(summary, indent=2)` -/
def rendered (report : Report) : Name := render indented reportSpelling 0 (reportValue report)

/-! ## The values of a report -/

section Values

/-- What every character of a Python string made of characters is. -/
theorem isWhole_of_mem_pyStr {characters : List Char} {point : Nat} (h : point ∈ pyStr characters) :
    IsWhole point := by
  obtain ⟨c, _, rfl⟩ := List.mem_map.mp h
  exact Icflow.Generate.isWhole_toNat c

variable {Strings : Name → Prop} {Numbers : List Char → Prop}
  (hstrings : ∀ value, (∀ point ∈ value, IsWhole point) → Strings value)
  (hnumbers : ∀ count, Numbers (countText count))
include hstrings

theorem strings_pyStr (characters : List Char) : Strings (pyStr characters) := by
  apply hstrings
  intro point hpoint
  exact isWhole_of_mem_pyStr hpoint

theorem strings_text (literal : String) : Strings (text literal) := strings_pyStr hstrings literal.toList

theorem holds_strings (names : List (List Char)) :
    HoldsElements Strings Numbers (names.map stringValue) := by
  induction names with
  | nil => exact trivial
  | cons name names ih => exact ⟨strings_pyStr hstrings name, ih⟩

theorem holds_examples (shown : List PairExample) :
    HoldsElements Strings Numbers (shown.map exampleValue) := by
  induction shown with
  | nil => exact trivial
  | cons first shown ih =>
      refine ⟨⟨strings_text hstrings _, strings_pyStr hstrings _, ?_⟩, ih⟩
      exact ⟨strings_text hstrings _, strings_pyStr hstrings _, strings_text hstrings _,
        strings_pyStr hstrings _, trivial⟩

include hnumbers

/-- What holds of all whole strings and of all counts holds throughout a report. -/
theorem holds_reportValue (report : Report) : Holds Strings Numbers (reportValue report) := by
  have hname := strings_text hstrings
  refine ⟨hname _, hnumbers _, hname _, hnumbers _, hname _, hnumbers _, hname _, hnumbers _,
    hname _, hnumbers _, hname _, ?_, hname _, ?_, hname _, ?_, trivial⟩
  · exact holds_examples hstrings _
  · exact holds_strings hstrings _
  · exact holds_strings hstrings _

end Values

/-! ## Reading a report -/

theorem map_ofNat_pyStr (characters : List Char) : (pyStr characters).map Char.ofNat = characters := by
  simp [pyStr, List.map_map, Function.comp_def, Char.ofNat_toNat]

theorem pyStr_injective {first second : List Char} (h : pyStr first = pyStr second) :
    first = second := by
  rw [← map_ofNat_pyStr first, h, map_ofNat_pyStr]

mutual

/-- Numbers that are printed as they stand are read as they stand. -/
theorem respelled_pyStr : (value : Json Nat) → respelled pyStr value = value
  | .null => rfl
  | .bool _ => rfl
  | .num lexeme => by rw [respelled, map_ofNat_pyStr]
  | .str _ => rfl
  | .arr elements => by rw [respelled, respelledElements_pyStr elements]
  | .obj members => by rw [respelled, respelledMembers_pyStr members]

theorem respelledElements_pyStr : (elements : List (Json Nat)) →
    respelledElements pyStr elements = elements
  | [] => rfl
  | value :: rest => by
      rw [respelledElements, respelled_pyStr value, respelledElements_pyStr rest]

theorem respelledMembers_pyStr : (members : List (Name × Json Nat)) →
    respelledMembers pyStr members = members
  | [] => rfl
  | (_, value) :: rest => by
      rw [respelledMembers, respelled_pyStr value, respelledMembers_pyStr rest]

end

/-- The printed report, and the written one with its line break, are read as the report. -/
theorem loads_rendered (report : Report) {tail : Name} (htail : skipBlank tail = []) :
    loads (rendered report ++ tail) = some (reportValue report) := by
  have hvalue : reportSpelling.Spells (fun value => ∀ point ∈ value, IsWhole point)
      (reportValue report) := by
    apply holds_reportValue
    · intro value h
      exact h
    · exact numberText_countText
  have hread : loads (rendered report ++ tail) = some (respelled pyStr (reportValue report)) :=
    loads_render indented (readable_ascii pyStr) hvalue htail
  rw [hread, respelled_pyStr]

theorem countValue_injective {first second : Nat} (h : countValue first = countValue second) :
    first = second := by
  have hlow : 1 < 10 := by omega
  have hhigh : 10 ≤ 16 := by omega
  exact toDigits_injective hlow hhigh (Json.num.inj h)

theorem stringValue_injective {first second : List Char} (h : stringValue first = stringValue second) :
    first = second := pyStr_injective (Json.str.inj h)

theorem exampleValue_injective {first second : PairExample} (h : exampleValue first = exampleValue second) :
    first = second := by
  obtain ⟨binary, callSite, target⟩ := first
  obtain ⟨binary', callSite', target'⟩ := second
  simp only [exampleValue, Json.obj.injEq, List.cons.injEq, Prod.mk.injEq, true_and, and_true] at h
  rw [stringValue_injective h.1, stringValue_injective h.2.1, stringValue_injective h.2.2]

/-- The dictionary determines the report. -/
theorem reportValue_injective {first second : Report} (h : reportValue first = reportValue second) :
    first = second := by
  obtain ⟨⟨baseline, candidate, new, union, missing, shown⟩, files, files'⟩ := first
  obtain ⟨⟨baseline', candidate', new', union', missing', shown'⟩, others, others'⟩ := second
  simp only [reportValue, Json.obj.injEq, List.cons.injEq, Prod.mk.injEq, true_and, and_true,
    Json.arr.injEq] at h
  obtain ⟨hbaseline, hcandidate, hnew, hunion, hmissing, hshown, hfiles, hfiles'⟩ := h
  have hexamples := List.map_injective_iff.mpr (fun _ _ => exampleValue_injective) hshown
  have hfirst := List.map_injective_iff.mpr (fun _ _ => stringValue_injective) hfiles
  have hsecond := List.map_injective_iff.mpr (fun _ _ => stringValue_injective) hfiles'
  rw [countValue_injective hbaseline, countValue_injective hcandidate, countValue_injective hnew,
    countValue_injective hunion, countValue_injective hmissing, hexamples, hfirst, hsecond]

/-! ## The bytes of a report -/

theorem asciiPoints_rendered (report : Report) : AsciiPoints (rendered report) := by
  apply asciiPoints_render
  apply holds_reportValue
  · intro value hvalue point hpoint
    exact (hvalue point hpoint).1
  · intro count point hpoint
    have hdigit := isDigit_countText hpoint
    simp only [isDigit, Bool.and_eq_true, decide_eq_true_eq] at hdigit
    omega

theorem pyStr_map_ofNat {content : Name} (h : AsciiPoints content) :
    pyStr (content.map Char.ofNat) = content := by
  have hpoint : ∀ point ∈ content, (Char.toNat ∘ Char.ofNat) point = id point :=
    fun point hmem => toNat_byte (Nat.lt_of_lt_of_le (h point hmem) (by omega))
  rw [pyStr, List.map_map, List.map_congr_left hpoint, List.map_id]

theorem encodeText_of_asciiPoints {content : Name} (h : AsciiPoints content) :
    encodeText content = some (content.map Char.ofNat) := by
  have hall : content.mapM encodePoint = some (content.map fun point => [Char.ofNat point]) := by
    induction content with
    | nil => rfl
    | cons point content ih =>
        obtain ⟨hpoint, hrest⟩ := List.forall_mem_cons.mp h
        have hencode : encodePoint point = some [Char.ofNat point] := by
          have hplain : isSurrogate point = false := by
            rw [isSurrogate, decide_eq_false_iff_not]
            omega
          rw [encodePoint, hplain, utf8Bytes, if_pos hpoint]
          rfl
        rw [List.mapM_cons, hencode, ih hrest]
        rfl
  rw [encodeText, hall, Option.map_some, ← List.flatMap_def, List.map_eq_flatMap]

end Icflow.Compare
