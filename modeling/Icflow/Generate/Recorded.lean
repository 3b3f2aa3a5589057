import Icflow.Foundation.Json.Schema
import Icflow.Generate.Replay

set_option autoImplicit false

/-!
# The record of a run

`generation_metadata.json` is what a run writes last.  Read back, it names the files whose
contents were in the prompt, in their order there, and says where the suite comes from.
-/

namespace Icflow.Generate

open Icflow.Foundation

/-! ## Reading a record -/

/-- `record["request"]` -/
def recordedRequest (record : Json Nat) : Option (List (Name × Json Nat)) :=
  ((dictMembers record).bind fun members => getField members (text "request")).bind dictMembers

/-- `[file["path"] for file in record["request"]["files"]]` -/
def recordedFiles (record : Json Nat) : Option (List Name) :=
  ((recordedRequest record).bind fun request => (getField request (text "files")).bind listOf).map
    fun files => files.filterMap fun file =>
      (dictMembers file).bind fun members => getString members (text "path")

/-- `record["request"]["model"]` -/
def recordedModel (record : Json Nat) : Option Name :=
  (recordedRequest record).bind fun request => getString request (text "model")

/-- `record["source"]` -/
def recordedSource (record : Json Nat) : Option Name :=
  (dictMembers record).bind fun members => getString members (text "source")

section Respelled

variable (number : List Char → Name)

theorem recordedRequest_respelled (record : Json Nat) :
    recordedRequest (respelled number record) =
      (recordedRequest record).map (respelledMembers number) := by
  rw [recordedRequest, recordedRequest, dictMembers_respelled]
  cases dictMembers record with
  | none => rfl
  | some members =>
      simp only [Option.map_some, Option.bind_some, getField_respelledMembers]
      cases getField members (text "request") with
      | none => rfl
      | some request => exact dictMembers_respelled number request

theorem recordedModel_respelled (record : Json Nat) :
    recordedModel (respelled number record) = recordedModel record := by
  rw [recordedModel, recordedModel, recordedRequest_respelled]
  cases recordedRequest record with
  | none => rfl
  | some request => exact getString_respelledMembers number request (text "model")

theorem recordedSource_respelled (record : Json Nat) :
    recordedSource (respelled number record) = recordedSource record := by
  rw [recordedSource, recordedSource, dictMembers_respelled]
  cases dictMembers record with
  | none => rfl
  | some members => exact getString_respelledMembers number members (text "source")

theorem recordedFiles_respelled (record : Json Nat) :
    recordedFiles (respelled number record) = recordedFiles record := by
  rw [recordedFiles, recordedFiles, recordedRequest_respelled]
  cases recordedRequest record with
  | none => rfl
  | some request =>
      simp only [Option.map_some, Option.bind_some, getField_respelledMembers]
      cases getField request (text "files") with
      | none => rfl
      | some files =>
          simp only [Option.map_some, Option.bind_some, listOf_respelled]
          cases listOf files with
          | none => rfl
          | some elements =>
              simp only [Option.map_some, respelledElements_eq, List.filterMap_map]
              congr 2
              funext file
              rw [Function.comp_apply, dictMembers_respelled]
              cases dictMembers file with
              | none => rfl
              | some members => exact getString_respelledMembers number members (text "path")

end Respelled

/-! ## What the record says -/

section Metadata

variable {response : Response} {options : Options} {project : Project} {selected : List SelectedFile}

theorem recordedFiles_metadata (hmanifest : response.manifest = manifest options project selected) :
    recordedFiles response.metadata = some (selected.map fun file => file.path) := by
  have hrequest : recordedRequest response.metadata = dictMembers response.manifest := rfl
  have hfiles : recordedFiles response.metadata = some ((selected.map fileManifest).filterMap
      fun file => (dictMembers file).bind fun members => getString members (text "path")) := by
    rw [recordedFiles, hrequest, hmanifest]
    rfl
  have hpath : (fun file => (dictMembers file).bind fun members => getString members (text "path")) ∘
      fileManifest = some ∘ fun file : SelectedFile => file.path := rfl
  rw [hfiles, List.filterMap_map, hpath, List.filterMap_eq_map]

theorem recordedModel_metadata (hmanifest : response.manifest = manifest options project selected) :
    recordedModel response.metadata = some options.model := by
  have hrequest : recordedRequest response.metadata = dictMembers response.manifest := rfl
  rw [recordedModel, hrequest, hmanifest]
  rfl

theorem recordedSource_metadata : recordedSource response.metadata = some response.source := rfl

theorem Loaded.field {members : List (Name × Json Nat)} (h : Loaded (.obj members)) (field : Name) :
    Loaded ((getField members field).getD .null) := by
  cases hfield : getField members field with
  | none => exact ⟨trivial, trivial⟩
  | some value =>
      have hmem : (field, value) ∈ members := Json.mem_of_member hfield
      exact ⟨pythonValue_of_getField h.python hfield, distinctMembers_iff.mp h.distinct.2 _ hmem⟩

theorem distinct_manifest : Distinct (manifest options project selected) := by
  have hnames : [text "project", text "model", text "selected_file_count",
      text "selected_character_count", text "files"].Pairwise (· ≠ ·) := by
    decide
  have hfileNames : [text "path", text "byte_count", text "priority"].Pairwise (· ≠ ·) := by
    decide
  have hdistinct : Distinct (.arr (selected.map fileManifest)) := by
    induction selected with
    | nil => exact trivial
    | cons file selected ih =>
        exact ⟨⟨distinct_of_names hfileNames rfl, trivial, trivial, trivial, trivial⟩, ih⟩
  exact ⟨distinct_of_names hnames rfl, trivial, trivial, trivial, trivial, hdistinct, trivial⟩

theorem loaded_metadata {draft : Draft} (h : Received options draft response)
    (hmanifest : draft.manifest = manifest options project selected)
    (hstrings : PythonValue draft.manifest) : Loaded response.metadata := by
  have hnames : [text "source", text "id", text "model", text "status", text "usage",
      text "request"].Pairwise (· ≠ ·) := by
    decide
  have hpoints : ∀ literal ∈ ["source", "id", "model", "status", "usage", "request", "response-file",
      "openai-responses-api"], CodePoints (text literal) := by
    unfold CodePoints
    decide
  have hsource : CodePoints response.source := by
    rw [h.source]
    cases options.mode with
    | responseFile path => exact hpoints _ (by simp)
    | dryRun promptOutput => exact hpoints _ (by simp)
    | api => exact hpoints _ (by simp)
  have hrequest : Loaded response.manifest := by
    rw [h.manifest]
    refine ⟨hstrings, ?_⟩
    rw [hmanifest]
    exact distinct_manifest
  have hid := h.rawResponse.field (text "id")
  have hmodel := h.rawResponse.field (text "model")
  have hstatus := h.rawResponse.field (text "status")
  have husage := h.rawResponse.field (text "usage")
  refine ⟨⟨hpoints _ ?_, hsource, hpoints _ ?_, hid.python, hpoints _ ?_, hmodel.python, hpoints _ ?_,
    hstatus.python, hpoints _ ?_, husage.python, hpoints _ ?_, hrequest.python, trivial⟩,
    distinct_of_names hnames rfl, trivial, hid.distinct, hmodel.distinct, hstatus.distinct,
    husage.distinct, hrequest.distinct, trivial⟩
  all_goals simp

end Metadata

/-! ## The file -/

section File

variable {python : Python} {machine : Machine} {options : Options}

/-- What is left in `generation_metadata.json`. -/
theorem encodeText_metadata {printer : Printer} {fs : FileSystem} {outputRoot : Path}
    {response : Response} {key : Key} {bytes : List Char}
    (hok : (writeReports printer fs outputRoot response).2 = .ok ())
    (hkey : leadsTo fs (outputRoot ++ [metadataName]) = some key)
    (hbytes : (writeReports printer fs outputRoot response).1 key = some (.file bytes)) :
    encodeText (dumps printer.number 0 response.metadata ++ text "\n") = some bytes := by
  obtain ⟨fs₁, _, hrest, hlinks⟩ := writeReports_of_ok hok
  rw [hrest] at hok hbytes
  rw [← hlinks] at hkey
  exact encodeText_of_writeText hok hkey hbytes

/-- What the prompt of a draft is put together from: the files that are selected in the
project, the options and the report. -/
structure Prompts (python : Python) (machine : Machine) (options : Options) (draft : Draft)
    (prompted : PromptArguments) : Prop where
  prompt : draft.prompt = buildPrompt python.number prompted
  selected : ∃ project output, machine.project = some project ∧
    resolvedOutput machine options = .ok output ∧ prompted.projectRoot = project.root ∧
      prompted.selectedFiles = selectProjectFiles python.lower project output options.limits
  testCount : prompted.testCount = options.testCount
  existingTestCommand : prompted.existingTestCommand = options.existingTestCommand
  extraInstructions : prompted.extraInstructions = options.extraInstructions
  coverageReport : readCoverage machine options = .ok prompted.coverageReport

/-- What is found in the metadata file of a successful run names the files of its prompt. -/
theorem metadata_records (hnumber : PrintsNumbers python.number)
    (hmode : options.mode.isDryRun = false) (hok : (main python machine options).result = .ok ())
    (hstrings : ∀ draft, prepare python machine options = .ok draft → PythonValue draft.manifest)
    {outputDir outputRoot : Path} {key : Key} {bytes : List Char}
    (houtput : options.outputDir = some outputDir)
    (hroot : resolve (main python machine options).store outputDir = some outputRoot)
    (hkey : leadsTo (main python machine options).store (outputRoot ++ [metadataName]) = some key)
    (hbytes : (main python machine options).store key = some (.file bytes)) :
    ∃ draft prompted record, prepare python machine options = .ok draft ∧
      Prompts python machine options draft prompted ∧ readJson bytes = some record ∧
        recordedFiles record = some (prompted.selectedFiles.map fun file => file.path) ∧
          recordedModel record = some options.model ∧
            recordedSource record = some options.mode.generationSource := by
  obtain ⟨draft, outputDir', response, requests, sleeps, hprepare, houtput', hreceived, hmain⟩ :=
    exists_finish_of_ok hmode hok
  rw [houtput, Option.some.injEq] at houtput'
  subst houtput'
  obtain ⟨project, output, selected, coverage, hproject, _, hresolved, _, hselected, _, hcoverage,
    hdraft⟩ := (prepare_eq_ok_iff python machine options).mp hprepare
  have hmanifest : draft.manifest = manifest options project selected := by rw [hdraft]
  have hloaded := loaded_metadata hreceived hmanifest (hstrings draft hprepare)
  have hencoded : encodeText (dumps python.number 0 response.metadata ++ text "\n") = some bytes := by
    rw [hmain] at hok hroot hkey hbytes
    obtain ⟨fs, root, hreports, hleft, hresolve⟩ := exists_writeReports_of_finish hok
    have hlinks := links_writeReports python.toPrinter fs root response
    rw [hleft] at hroot hkey hbytes
    rw [resolve, resolveFrom_congr hlinks, ← resolve, hresolve, Option.some.injEq] at hroot
    subst hroot
    rw [leadsTo_congr hlinks] at hkey
    exact encodeText_metadata hreports hkey hbytes
  have hmanifest' := hreceived.manifest.trans hmanifest
  have hprompts := congrArg Draft.prompt hdraft
  refine ⟨draft, _, _, hprepare,
    ⟨hprompts, ⟨project, output, hproject, hresolved, rfl, hselected.symm⟩, rfl, rfl, rfl, hcoverage⟩,
    readJson_of_encodeText hnumber hloaded.python hloaded.distinct hencoded, ?_, ?_, ?_⟩
  · rw [recordedFiles_respelled, recordedFiles_metadata hmanifest']
  · rw [recordedModel_respelled, recordedModel_metadata hmanifest']
  · rw [recordedSource_respelled, recordedSource_metadata, hreceived.source]

end File

/-- The bytes of the record of the run that replays a suite. -/
def replayRecord : List Char :=
  (dumps asSpelled 0 (fileResponse ⟨[], replayManifest⟩ fullSuite).metadata ++ text "\n").map
    Char.ofNat

theorem pythonValue_replayManifest : PythonValue replayManifest := by
  refine ⟨?_, ?_, ?_, ?_, ?_, trivial, ?_, trivial, ?_, ⟨⟨?_, ?_, ?_, trivial, ?_, trivial, trivial⟩,
    trivial⟩, trivial⟩
  all_goals
    change CodePoints _
    unfold CodePoints
    decide

theorem metadata_records_replayMachine :
    ∃ draft prompted record, prepare replayPython replayMachine replayOptions = .ok draft ∧
      Prompts replayPython replayMachine replayOptions draft prompted ∧
        readJson replayRecord = some record ∧
        recordedFiles record = some (prompted.selectedFiles.map fun file => file.path) ∧
          recordedModel record = some replayOptions.model ∧
            recordedSource record = some replayOptions.mode.generationSource := by
  have hok : (main replayPython replayMachine replayOptions).result = .ok () := by
    rw [main_replayMachine]
    decide +kernel
  have hstrings : ∀ draft, prepare replayPython replayMachine replayOptions = .ok draft →
      PythonValue draft.manifest := by
    intro draft hdraft
    obtain ⟨prompt, hprepare⟩ := exists_prepare_replayMachine
    rw [hprepare] at hdraft
    obtain rfl := Except.ok.inj hdraft
    exact pythonValue_replayManifest
  have hroot : resolve (main replayPython replayMachine replayOptions).store generatedDirectory =
      some generatedDirectory := by
    rw [main_replayMachine]
    decide +kernel
  obtain ⟨key, hkey⟩ : ∃ key, leadsTo (main replayPython replayMachine replayOptions).store
      (generatedDirectory ++ [metadataName]) = some key := by
    rw [main_replayMachine]
    exact Option.isSome_iff_exists.mp (by decide +kernel)
  have hbytes : (main replayPython replayMachine replayOptions).store key =
      some (.file replayRecord) := by
    have hfound : (leadsTo replayRun.store (generatedDirectory ++ [metadataName])).bind
        replayRun.store = some (.file replayRecord) := by
      decide +kernel
    rw [main_replayMachine] at hkey ⊢
    rwa [hkey] at hfound
  exact metadata_records printsNumbers_asSpelled rfl hok hstrings rfl hroot hkey hbytes

end Icflow.Generate
