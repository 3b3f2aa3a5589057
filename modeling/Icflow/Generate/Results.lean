import Icflow.Generate.Selection
import Icflow.Generate.Suite

set_option autoImplicit false

/-!
# Writing the results of a run

The last part of `main`: the output directory is compared with the project, the suite is
materialized, and the suite and the metadata of the response are written beside it.
-/

namespace Icflow.Generate

open Icflow.Foundation

/-! ## `json.dumps` -/

/-- The escapes of `json.dumps` that are not numbers. -/
def shortEscapes : List (Nat × Name) :=
  [(34, text "\\\""), (92, text "\\\\"), (10, text "\\n"), (13, text "\\r"), (9, text "\\t"),
    (12, text "\\f"), (8, text "\\b")]

theorem mem_shortEscapes {point : Nat} {escape : Name} (h : shortEscapes.lookup point = some escape) :
    (point, escape) ∈ shortEscapes := by
  obtain ⟨before, after, hsplit, _⟩ := List.lookup_eq_some_iff.mp h
  rw [hsplit]
  exact List.mem_append_right _ List.mem_cons_self

/-- A hexadecimal digit. -/
def hexDigit (digit : Nat) : Nat := if digit < 10 then 48 + digit else 87 + digit

/-- One code point of a string; `ensure_ascii=False` keeps everything above the control
characters. -/
def escapePoint (point : Nat) : Name :=
  match shortEscapes.lookup point with
  | some escape => escape
  | none =>
      if point < 32 then text "\\u00" ++ [hexDigit (point / 16), hexDigit (point % 16)]
      else [point]

/-- A string with its quotes. -/
def dumpsString (value : Name) : Name := text "\"" ++ value.flatMap escapePoint ++ text "\""

/-- A line break and an indentation. -/
def newLine (indent : Nat) : Name := text "\n" ++ List.replicate indent 32

mutual

/-- `json.dumps(value, indent=2, ensure_ascii=False)`; `indent` is the indentation of the
line the value starts on and `number` is what Python prints for a number. -/
def dumps (number : List Char → Name) (indent : Nat) : Json Nat → Name
  | .null => text "null"
  | .bool true => text "true"
  | .bool false => text "false"
  | .num lexeme => number lexeme
  | .str value => dumpsString value
  | .arr [] => text "[]"
  | .arr (first :: rest) =>
      text "[" ++ newLine (indent + 2) ++ dumps number (indent + 2) first ++
        dumpsElements number (indent + 2) rest ++ newLine indent ++ text "]"
  | .obj [] => text "\x7b\x7d"
  | .obj ((name, value) :: rest) =>
      text "\x7b" ++ newLine (indent + 2) ++ dumpsString name ++ text ": " ++
        dumps number (indent + 2) value ++ dumpsMembers number (indent + 2) rest ++
        newLine indent ++ text "\x7d"

/-- The elements after the first. -/
def dumpsElements (number : List Char → Name) (indent : Nat) : List (Json Nat) → Name
  | [] => []
  | value :: rest =>
      text "," ++ newLine indent ++ dumps number indent value ++ dumpsElements number indent rest

/-- The members after the first. -/
def dumpsMembers (number : List Char → Name) (indent : Nat) : List (Name × Json Nat) → Name
  | [] => []
  | (name, value) :: rest =>
      text "," ++ newLine indent ++ dumpsString name ++ text ": " ++ dumps number indent value ++
        dumpsMembers number indent rest

end

/-- What Python makes of a value that it prints. -/
structure Printer where
  /-- what is printed for a number that is read from these characters -/
  number : List Char → Name
  /-- how deep a value may be nested before `json.dumps` gets to the recursion limit -/
  maxDepth : Nat
  /-- the values that the program itself builds are within it -/
  four_le_maxDepth : 4 ≤ maxDepth

/-! ## The end of `main` -/

/-- What a run has when it comes to writing: the suite, where it comes from, the response
of the API and the manifest of the selected files. -/
structure Response where
  generated : Json Nat
  source : Name
  rawResponse : List (Name × Json Nat)
  manifest : Json Nat

/-- `raw_response.get(field)` -/
def Response.field (response : Response) (field : Name) : Json Nat :=
  (getField response.rawResponse field).getD .null

/-- `response_metadata` -/
def Response.metadata (response : Response) : Json Nat :=
  .obj [(text "source", .str response.source), (text "id", response.field (text "id")),
    (text "model", response.field (text "model")),
    (text "status", response.field (text "status")),
    (text "usage", response.field (text "usage")), (text "request", response.manifest)]

/-- The key a path leads to, links followed. -/
def leadsTo (fs : FileSystem) (path : Path) : Option Key := (resolve fs path).bind encodePath

/-- `path.write_text(content, encoding="utf-8", newline="\n")` -/
def writeText (fs : FileSystem) (path : Path) (content : Name) : FileSystem × Except Failure Unit :=
  match leadsTo fs path with
  | none => (fs, .error .unencodablePath)
  | some key =>
      match Store.write fs key (encodeText content) with
      | (fs', .error fault) => (fs', .error (.write fault))
      | (fs', .ok ()) => (fs', .ok ())

/-- `generation.json` -/
def generationName : Name := text "generation.json"

/-- `generation_metadata.json` -/
def metadataName : Name := text "generation_metadata.json"

/-- Print a value, and write it with a line break after it; the value is printed before the
file is opened. -/
def writeReport (printer : Printer) (fs : FileSystem) (path : Path) (value : Json Nat) :
    FileSystem × Except Failure Unit :=
  if printer.maxDepth < value.depth then (fs, .error .nestedTooDeep)
  else writeText fs path (dumps printer.number 0 value ++ text "\n")

/-- The writes of `main` after `materialize_suite`. -/
def writeReports (printer : Printer) (fs : FileSystem) (outputRoot : Path) (response : Response) :
    FileSystem × Except Failure Unit :=
  match writeReport printer fs (outputRoot ++ [generationName]) response.generated with
  | (fs', .error failure) => (fs', .error failure)
  | (fs', .ok ()) => writeReport printer fs' (outputRoot ++ [metadataName]) response.metadata

/-- `main`, from `materialize_suite` on -/
def writeSuite (lower : Name → Name) (printer : Printer) (disk : Disk) (outputDir : Path)
    (response : Response) (force : Bool) : FileSystem × Except Failure Unit :=
  match materializeSuite lower disk outputDir response.generated force with
  | (fs, .error failure) => (fs, .error failure)
  | (fs, .ok _) =>
      match resolve fs outputDir with
      | none => (fs, .error .unencodablePath)
      | some outputRoot => writeReports printer fs outputRoot response

/-- `main`, from the comparison of the output directory with the resolved project root
on, without the coverage report and the prompt. -/
def writeResults (lower : Name → Name) (printer : Printer) (disk : Disk) (project : Project)
    (limits : Limits) (outputDir : Path) (response : Response) (force : Bool) :
    FileSystem × Except Failure Unit :=
  match resolve disk.store outputDir with
  | none => (disk.store, .error .unencodablePath)
  | some resolved =>
      if resolved = project.root then (disk.store, .error .notSeparate)
      else if (selectProjectFiles lower project (some resolved) limits).isEmpty then
        (disk.store, .error .noEligibleFiles)
      else writeSuite lower printer disk outputDir response force

/-- A run with an eligible file and an output directory of its own gets to its suite. -/
theorem writeResults_of_eligible {lower : Name → Name} {printer : Printer} {disk : Disk}
    {project : Project} {limits : Limits} {outputDir root : Path} {response : Response}
    {force : Bool} (hresolve : resolve disk.store outputDir = some root)
    (hapart : root ≠ project.root)
    (heligible : selectProjectFiles lower project (some root) limits ≠ []) :
    writeResults lower printer disk project limits outputDir response force =
      writeSuite lower printer disk outputDir response force := by
  have hsome : ¬ (selectProjectFiles lower project (some root) limits).isEmpty = true :=
    fun hempty => heligible (List.isEmpty_iff.mp hempty)
  rw [writeResults, hresolve]
  simp only [if_neg hapart, if_neg hsome]

end Icflow.Generate
