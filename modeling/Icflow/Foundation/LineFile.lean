import Icflow.Foundation.Lines

set_option autoImplicit false

/-!
# Files that are read by their lines and written at their end

A program that appends a line to a file writes behind whatever the file ends with.  If that
is no line break, the line that was left open is completed and the appended one is lost.
-/

namespace Icflow.Foundation

/-- A file as `grep` reads it. -/
structure LineFile where
  /-- the lines that a line break ends -/
  ended : List (List Char)
  /-- what follows the last of them -/
  rest : List Char
  deriving DecidableEq

namespace LineFile

/-- A file without bytes. -/
def empty : LineFile := ⟨[], []⟩

/-- A null byte ends a line as a newline does: `grep` takes a file that has one for binary. -/
def zapNulls (bytes : List Char) : List Char := bytes.map fun c => if c = '\x00' then '\n' else c

/-- The file with the given bytes. -/
def ofBytes (bytes : List Char) : LineFile where
  ended := (Foundation.lines (zapNulls bytes)).dropLast
  rest := (Foundation.lines (zapNulls bytes)).getLastD []

/-- The lines that `grep` finds; the last one need not be ended. -/
def lines (file : LineFile) : List (List Char) :=
  if file.rest = [] then file.ended else file.ended ++ [file.rest]

/-- The file after `echo` has appended a line. -/
def append (file : LineFile) (line : List Char) : LineFile := ⟨file.ended ++ [file.rest ++ line], []⟩

/-- The file after lines have been appended. -/
def appendAll (file : LineFile) (appended : List (List Char)) : LineFile := appended.foldl append file

/-! ## The bytes of the file -/

theorem lines_ofBytes (bytes : List Char) : (ofBytes bytes).lines = pieces (zapNulls bytes) := by
  obtain hnil | ⟨front, last, hlines⟩ := List.eq_nil_or_concat (Foundation.lines (zapNulls bytes))
  · exact absurd hnil (lines_ne_nil _)
  · unfold lines ofBytes pieces
    rw [hlines]
    simp

theorem zapNulls_append (bytes more : List Char) :
    zapNulls (bytes ++ more) = zapNulls bytes ++ zapNulls more := List.map_append

theorem mem_of_mem_zapNulls {bytes : List Char} {c : Char} (hc : c ≠ '\n')
    (h : c ∈ zapNulls bytes) : c ∈ bytes := by
  obtain ⟨byte, hbyte, heq⟩ := List.mem_map.mp h
  split at heq
  · exact absurd heq.symm hc
  · exact heq ▸ hbyte

theorem zapNulls_of_notMem {bytes : List Char} (h : '\x00' ∉ bytes) : zapNulls bytes = bytes := by
  have hkept : ∀ c ∈ bytes, (if c = '\x00' then '\n' else c) = c := by
    intro c hc
    have hne : c ≠ '\x00' := fun heq => h (heq ▸ hc)
    exact if_neg hne
  rw [zapNulls, List.map_congr_left hkept, List.map_id']

theorem zapNulls_append_newline {line : List Char} (h : '\x00' ∉ line) (rest : List Char) :
    zapNulls (line ++ '\n' :: rest) = line ++ '\n' :: zapNulls rest := by
  rw [zapNulls_append, zapNulls_of_notMem h]
  rfl

/-- A text that is written behind a file completes the line that the file left open. -/
theorem lines_append {text line : List Char} (hline : '\n' ∉ line) :
    Foundation.lines (text ++ (line ++ ['\n'])) =
      (Foundation.lines text).dropLast ++ [(Foundation.lines text).getLastD [] ++ line, []] := by
  induction text with
  | nil => exact lines_append_newline hline []
  | cons c text ih =>
      rw [List.cons_append, Foundation.lines, Foundation.lines, ih]
      obtain ⟨first, others, hlines⟩ := List.exists_cons_of_ne_nil (lines_ne_nil text)
      rw [hlines]
      split
      · simp
      · cases others with
        | nil => simp
        | cons second others => simp

/-- Appending a line is what `echo` does to the bytes. -/
theorem ofBytes_append (bytes : List Char) {line : List Char} (hbreak : '\n' ∉ line)
    (hnull : '\x00' ∉ line) :
    ofBytes (bytes ++ (line ++ ['\n'])) = (ofBytes bytes).append line := by
  have hzap : zapNulls (bytes ++ (line ++ ['\n'])) = zapNulls bytes ++ (line ++ ['\n']) := by
    rw [zapNulls_append, zapNulls_append_newline hnull]
    rfl
  unfold append ofBytes
  rw [hzap, lines_append hbreak]
  simp

/-! ## The lines after an append -/

section Appended

variable {file : LineFile} {line : List Char} {appended : List (List Char)}

@[simp] theorem ended_append : (file.append line).ended = file.ended ++ [file.rest ++ line] := rfl

@[simp] theorem rest_append : (file.append line).rest = [] := rfl

theorem appendAll_cons (file : LineFile) (line : List Char) (appended : List (List Char)) :
    file.appendAll (line :: appended) = ⟨file.ended ++ (file.rest ++ line) :: appended, []⟩ := by
  unfold appendAll
  induction appended generalizing file line with
  | nil => rfl
  | cons next appended ih =>
      rw [List.foldl_cons, ih]
      simp

/-- Lines appended to a file whose last line is ended are lines of it. -/
theorem appendAll_of_ended (h : file.rest = []) (appended : List (List Char)) :
    file.appendAll appended = ⟨file.ended ++ appended, []⟩ := by
  cases appended with
  | nil =>
      cases file with
      | mk ended rest =>
          rw [List.append_nil]
          exact congrArg (mk ended) h
  | cons line appended =>
      rw [appendAll_cons, h]
      rfl

theorem rest_appendAll : (file.appendAll appended).rest = if appended = [] then file.rest else [] := by
  cases appended with
  | nil => rfl
  | cons line appended =>
      rw [appendAll_cons]
      rfl

theorem rest_appendAll_of_ended (h : file.rest = []) (appended : List (List Char)) :
    (file.appendAll appended).rest = [] := by
  rw [appendAll_of_ended h]

theorem ended_subset_appendAll (file : LineFile) (appended : List (List Char)) :
    file.ended ⊆ (file.appendAll appended).ended := by
  cases appended with
  | nil => exact List.Subset.refl _
  | cons line appended =>
      rw [appendAll_cons]
      exact List.subset_append_left _ _

theorem lines_of_ended (h : file.rest = []) : file.lines = file.ended := if_pos h

theorem lines_appendAll (h : file.rest = []) (appended : List (List Char)) :
    (file.appendAll appended).lines = file.lines ++ appended := by
  rw [lines_of_ended (rest_appendAll_of_ended h appended), appendAll_of_ended h, lines_of_ended h]

theorem mem_lines {found : List Char} :
    found ∈ file.lines ↔ found ∈ file.ended ∨ found ≠ [] ∧ found = file.rest := by
  unfold lines
  split
  · rename_i h
    rw [h]
    tauto
  · rename_i h
    rw [List.mem_append, List.mem_singleton]
    constructor
    · exact Or.imp id fun heq => ⟨heq ▸ h, heq⟩
    · exact Or.imp id And.right

end Appended

end LineFile

/-- `grep -Fqx`: some line is the given text. -/
def hasLine (line text : List Char) : Bool := (LineFile.ofBytes text).lines.contains line

theorem hasLine_iff {line text : List Char} :
    hasLine line text = true ↔ line ∈ pieces (LineFile.zapNulls text) := by
  rw [hasLine, List.contains_iff_mem, LineFile.lines_ofBytes]

/-- A text that lacks a character of the line does not have the line. -/
theorem hasLine_eq_false {line text : List Char} {c : Char} (hc : c ≠ '\n') (hline : c ∈ line)
    (htext : c ∉ text) : hasLine line text = false := by
  rw [← Bool.not_eq_true, hasLine_iff]
  intro hfound
  have hzapped := mem_of_mem_lines (mem_lines_of_mem_pieces hfound) hline
  exact htext (LineFile.mem_of_mem_zapNulls hc hzapped)

end Icflow.Foundation
