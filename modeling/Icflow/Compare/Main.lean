import Icflow.Compare.Report
import Icflow.Foundation.FileStore
import Mathlib.Data.Set.Card

set_option autoImplicit false

/-!
# `main` of the comparison tool

The two runs are read, then the report is printed, then it is written, and last the number
of new pairs is compared with what is required: each step ends the program when it fails.
The exit status, the printed text and the written file are described by the pairs that the
result files of the two runs hold, whatever order the files are read in.
-/

namespace Icflow.Compare

open Icflow.Foundation
open Icflow.Generate (Name text loads encodeText AsciiPoints asciiPoints_append)
open Icflow.PinTool

/-! ## What is at a root -/

/-- What is below a directory and matches, in the order in which it is read. -/
def sortedMatches (entries : List (List Char × Tree)) : List (List (List Char) × Tree) :=
  ((entryDescendants entries).filter fun below => matchesIcall below.1).mergeSort
    fun a b => (compare a.1 b.1).isLE

/-- The result files at a resolved path with their identities: the file that it is, or
everything below it whose name matches. -/
def rootFiles (resolved : List Char) : Option Tree → List (List Char × Tree)
  | some (.file bytes) =>
      if icallSuffix.isSuffixOf (filename resolved) then [(filename resolved, .file bytes)] else []
  | some (.directory entries) =>
      ((entryDescendants entries).filter fun below => matchesIcall below.1).map fun below =>
        (asPosix below.1, below.2)
  | some (.special _) => []
  | none => []

section Roots

variable (python : Interpreter) (resolved : List Char) (root : Option Tree)

/-- There is a result file, and each can be loaded. -/
def RootLoads : Prop :=
  rootFiles resolved root ≠ [] ∧ ∀ entry ∈ rootFiles resolved root, Accepted python entry.2

/-- The triples that the result files at a root hold. -/
def RootPairs : Set Pair := fun pair =>
  ∃ entry ∈ rootFiles resolved root, ∃ bytes, readBytes entry.2 = some bytes ∧
    pair.1 = entry.1 ∧ HoldsPair python bytes pair.2.1 pair.2.2

variable {python resolved root}

/-- Either the root loads, with the pairs and the identities of its result files, or
something is raised. -/
def LoadsOrRaises (python : Interpreter) (resolved : List Char) (root : Option Tree) : Prop :=
  (RootLoads python resolved root ∧ ∃ pairs files,
      loadPairs python resolved root = .ok (pairs, files) ∧
        (∀ pair, pair ∈ pairs ↔ pair ∈ RootPairs python resolved root) ∧
        files.Perm ((rootFiles resolved root).map Prod.fst)) ∨
    ¬ RootLoads python resolved root ∧ ∃ fault, loadPairs python resolved root = .error fault

theorem loadsOrRaises_of_nil {fault : PairsFault} (hfiles : rootFiles resolved root = [])
    (hload : loadPairs python resolved root = .error fault) :
    LoadsOrRaises python resolved root :=
  Or.inr ⟨fun h => h.1 hfiles, fault, hload⟩

theorem loadsOrRaises_file (python : Interpreter) (resolved bytes : List Char) :
    LoadsOrRaises python resolved (some (.file bytes)) := by
  by_cases hsuffix : icallSuffix.isSuffixOf (filename resolved) = true
  · have hfiles : rootFiles resolved (some (.file bytes)) = [(filename resolved, .file bytes)] :=
      if_pos hsuffix
    have hload : loadPairs python resolved (some (.file bytes)) =
        (addFile python (filename resolved) resolved (.file bytes) ∅).map
          fun pairs => (pairs, [filename resolved]) := by
      rw [loadPairs, discoverIcallFiles, if_pos hsuffix]
      simp only [addFiles]
      cases addFile python (filename resolved) resolved (.file bytes) ∅ with
      | error fault => rfl
      | ok pairs => rfl
    unfold LoadsOrRaises RootLoads RootPairs
    rw [hfiles, hload]
    have hread : readBytes (.file bytes) = some bytes := rfl
    by_cases hdeep : TooDeep python bytes
    · have hunreadable : Unreadable python (.file bytes) := by
        intro inner hinner
        cases hinner
        exact hdeep
      obtain ⟨fault, hrun, _⟩ :=
        addFile_of_unreadable python (filename resolved) resolved hunreadable ∅
      rw [hrun]
      refine Or.inr ⟨?_, fault, rfl⟩
      rintro ⟨_, hall⟩
      obtain ⟨inner, hinner, haccepted⟩ := hall _ (List.mem_singleton_self _)
      exact haccepted.shallow (hunreadable inner hinner)
    · rcases addFile_collects python (filename resolved) resolved hread hdeep ∅ with
        ⟨haccepted, pairs, hrun, hpairs⟩ | ⟨hrejected, fault, hrun, _⟩
      · rw [hrun]
        refine Or.inl ⟨⟨List.cons_ne_nil _ _, ?_⟩, pairs, _, rfl, ?_, List.Perm.refl _⟩
        · intro entry hentry
          rw [List.mem_singleton.mp hentry]
          exact ⟨bytes, rfl, haccepted, hdeep⟩
        · intro pair
          rw [hpairs, or_iff_right (Finset.notMem_empty pair)]
          constructor
          · intro hpair
            exact ⟨_, List.mem_singleton_self _, bytes, rfl, hpair⟩
          · rintro ⟨entry, hentry, inner, hinner, hpair⟩
            rw [List.mem_singleton.mp hentry] at hinner hpair
            cases hinner
            exact hpair
      · rw [hrun]
        refine Or.inr ⟨?_, fault, rfl⟩
        rintro ⟨_, hall⟩
        obtain ⟨inner, hinner, haccepted⟩ := hall _ (List.mem_singleton_self _)
        cases hinner
        exact hrejected haccepted.accepted
  · have hload : loadPairs python resolved (some (.file bytes)) =
        .error (.expectedIcallFile resolved) := by
      rw [loadPairs, discoverIcallFiles, if_neg hsuffix]
    exact loadsOrRaises_of_nil (if_neg hsuffix) hload

section Directories

variable {entries : List (List Char × Tree)}

theorem perm_sortedMatches (resolved : List Char) (entries : List (List Char × Tree)) :
    ((sortedMatches entries).map fun below => (asPosix below.1, below.2)).Perm
      (rootFiles resolved (some (.directory entries))) :=
  (List.mergeSort_perm _ _).map _

theorem mem_rootFiles_directory {entry : List Char × Tree} :
    entry ∈ rootFiles resolved (some (.directory entries)) ↔
      ∃ below ∈ sortedMatches entries, (asPosix below.1, below.2) = entry := by
  rw [← (perm_sortedMatches resolved entries).mem_iff, List.mem_map]

theorem loadPairs_directory (python : Interpreter) (resolved : List Char)
    (h : sortedMatches entries ≠ []) :
    loadPairs python resolved (some (.directory entries)) =
      match addFiles python ((sortedMatches entries).map (located resolved)) ∅ with
      | .error fault => .error fault
      | .ok pairs => .ok (pairs, (sortedMatches entries).map fun below => asPosix below.1) := by
  have hidentities : ((sortedMatches entries).map (located resolved)).map Prod.fst =
      (sortedMatches entries).map fun below => asPosix below.1 := by
    rw [List.map_map]
    rfl
  have hdiscover : discoverIcallFiles resolved (some (.directory entries)) =
      .ok ((sortedMatches entries).map (located resolved)) := by
    have hfiles : ((entryDescendants entries).filter fun below =>
        matchesIcall below.1).mergeSort (fun a b => (compare a.1 b.1).isLE) =
          sortedMatches entries := rfl
    simp only [discoverIcallFiles, hfiles]
    cases hsorted : sortedMatches entries with
    | nil => exact absurd hsorted h
    | cons first rest => rfl
  rewrite [loadPairs, hdiscover, ← hidentities]
  rfl

theorem loadsOrRaises_directory (python : Interpreter) (resolved : List Char)
    (entries : List (List Char × Tree)) :
    LoadsOrRaises python resolved (some (.directory entries)) := by
  have hperm := perm_sortedMatches resolved entries
  by_cases hsorted : sortedMatches entries = []
  · rw [hsorted] at hperm
    have hload : loadPairs python resolved (some (.directory entries)) =
        .error (.noFiles resolved) := by
      unfold sortedMatches at hsorted
      simp only [loadPairs, discoverIcallFiles, hsorted]
    exact loadsOrRaises_of_nil hperm.nil_eq.symm hload
  · unfold LoadsOrRaises
    rw [loadPairs_directory python resolved hsorted]
    rcases addFiles_cases python resolved (sortedMatches entries) ∅ with
      ⟨hall, pairs, hrun, hpairs⟩ | ⟨before, below, after, fault, hsplit, _, hrun, hcause⟩
    · rw [hrun]
      refine Or.inl ⟨⟨?_, ?_⟩, pairs, _, rfl, ?_, ?_⟩
      · intro hnil
        rw [hnil] at hperm
        exact hsorted (List.map_eq_nil_iff.mp hperm.eq_nil)
      · intro entry hentry
        obtain ⟨below, hbelow, rfl⟩ := mem_rootFiles_directory.mp hentry
        exact hall below hbelow
      · intro pair
        rw [hpairs, or_iff_right (Finset.notMem_empty pair)]
        constructor
        · rintro ⟨below, hbelow, hpair⟩
          exact ⟨_, mem_rootFiles_directory.mpr ⟨below, hbelow, rfl⟩, hpair⟩
        · rintro ⟨entry, hentry, hpair⟩
          obtain ⟨below, hbelow, rfl⟩ := mem_rootFiles_directory.mp hentry
          exact ⟨below, hbelow, hpair⟩
      · have hfirst := hperm.map Prod.fst
        rw [List.map_map] at hfirst
        exact hfirst
    · -- the path at which the loop ends is a result file that is not accepted
      rw [hrun]
      refine Or.inr ⟨?_, fault, rfl⟩
      rintro ⟨_, hall⟩
      have hbelow : below ∈ sortedMatches entries := by
        rw [hsplit]
        exact List.mem_append_right before List.mem_cons_self
      obtain ⟨bytes, hbytes, haccepted⟩ := hall _ (mem_rootFiles_directory.mpr ⟨below, hbelow, rfl⟩)
      rcases hcause with ⟨hunreadable, _⟩ | ⟨inner, hinner, hrejected, _, _⟩
      · exact haccepted.shallow (hunreadable bytes hbytes)
      · rw [hbytes, Option.some.injEq] at hinner
        exact haccepted.accepted (hinner ▸ hrejected)

end Directories

/-- `load_pairs` on any root. -/
theorem loadsOrRaises (python : Interpreter) (resolved : List Char) (root : Option Tree) :
    LoadsOrRaises python resolved root := by
  cases root with
  | none => exact loadsOrRaises_of_nil rfl rfl
  | some tree =>
      cases tree with
      | special read => exact loadsOrRaises_of_nil rfl rfl
      | file bytes => exact loadsOrRaises_file python resolved bytes
      | directory entries => exact loadsOrRaises_directory python resolved entries

end Roots

/-! ## `main` -/

/-- The parsed arguments: the two roots are resolved, with what is there. -/
structure Arguments where
  baseline : List Char × Option Tree
  candidate : List Char × Option Tree
  requireNew : Nat
  jsonOutput : Option (List (List Char))

/-- How a run of the tool ends. -/
inductive Ending where
  | done
  /-- `error: required at least … new pairs, observed …` -/
  | tooFew (required observed : Nat)
  /-- what `load_pairs` raises -/
  | unloadable (fault : PairsFault)
  /-- what writing the report raises -/
  | unwritable (fault : Store.WriteFault)
  deriving DecidableEq

/-- The exit status, with the handler around `main`; a `RecursionError` passes the handler. -/
def Ending.status : Ending → Nat
  | .done => 0
  | .tooFew _ _ | .unloadable _ | .unwritable _ => 1

/-- A run of the tool: what it leaves, what it prints and how it ends. -/
structure Comparison (τ : Type) where
  store : Store (List Char) τ
  stdout : Name
  ending : Ending

section Main

variable {τ : Type} (python : Interpreter) (arguments : Arguments) (store : Store (List Char) τ)

/-- `--json-output` -/
def writeReport (jsonOutput : Option (List (List Char))) (printed : Name) :
    Store (List Char) τ × Except Store.WriteFault Unit :=
  match jsonOutput with
  | none => (store, .ok ())
  | some path => Store.save store path (encodeText printed)

/-- `main`, from the loaded runs on. -/
def report (baseline candidate : Finset Pair × List (List Char)) : Comparison τ :=
  let summary : Report :=
    ⟨comparePairSets baseline.1 candidate.1, baseline.2, candidate.2⟩
  let printed := rendered summary ++ text "\n"
  match writeReport store arguments.jsonOutput printed with
  | (written, .error fault) => ⟨written, printed, .unwritable fault⟩
  | (written, .ok ()) =>
      if summary.summary.newPairCount < arguments.requireNew then
        ⟨written, printed, .tooFew arguments.requireNew summary.summary.newPairCount⟩
      else ⟨written, printed, .done⟩

/-- `main` and the handler around it. -/
def main : Comparison τ :=
  match loadPairs python arguments.baseline.1 arguments.baseline.2 with
  | .error fault => ⟨store, [], .unloadable fault⟩
  | .ok baseline =>
      match loadPairs python arguments.candidate.1 arguments.candidate.2 with
      | .error fault => ⟨store, [], .unloadable fault⟩
      | .ok candidate => report arguments store baseline candidate

/-- Both runs can be read. -/
def BothLoad : Prop :=
  RootLoads python arguments.baseline.1 arguments.baseline.2 ∧
    RootLoads python arguments.candidate.1 arguments.candidate.2

/-- The triples of the baseline. -/
def baselinePairs : Set Pair := RootPairs python arguments.baseline.1 arguments.baseline.2

/-- The triples of the candidate. -/
def candidatePairs : Set Pair := RootPairs python arguments.candidate.1 arguments.candidate.2

/-- Both runs are read before anything is printed or written. -/
theorem main_cases :
    (BothLoad python arguments ∧ ∃ baseline candidate : Finset Pair, ∃ files files' : List (List Char),
        main python arguments store = report arguments store (baseline, files) (candidate, files') ∧
          (baseline : Set Pair) = baselinePairs python arguments ∧
          (candidate : Set Pair) = candidatePairs python arguments ∧
          files.Perm ((rootFiles arguments.baseline.1 arguments.baseline.2).map Prod.fst) ∧
          files'.Perm ((rootFiles arguments.candidate.1 arguments.candidate.2).map Prod.fst)) ∨
      ¬ BothLoad python arguments ∧ ∃ fault, main python arguments store = ⟨store, [], .unloadable fault⟩ := by
  unfold main
  rcases loadsOrRaises python arguments.baseline.1 arguments.baseline.2 with
    ⟨hbaseline, baseline, files, hload, hpairs, hfiles⟩ | ⟨hbaseline, fault, hload⟩
  · rw [hload]
    rcases loadsOrRaises python arguments.candidate.1 arguments.candidate.2 with
      ⟨hcandidate, candidate, files', hload', hpairs', hfiles'⟩ | ⟨hcandidate, fault, hload'⟩
    · rw [hload']
      exact Or.inl ⟨⟨hbaseline, hcandidate⟩, baseline, candidate, files, files', rfl,
        Set.ext hpairs, Set.ext hpairs', hfiles, hfiles'⟩
    · rw [hload']
      exact Or.inr ⟨fun h => hcandidate h.2, fault, rfl⟩
  · rw [hload]
    exact Or.inr ⟨fun h => hbaseline h.1, fault, rfl⟩

/-! ## The exit status -/

/-- The printed report can always be encoded. -/
theorem isSome_encodeText_printed (summary : Report) :
    encodeText (rendered summary ++ text "\n") =
      some ((rendered summary ++ text "\n").map Char.ofNat) := by
  apply encodeText_of_asciiPoints
  have hbreak : AsciiPoints (text "\n") := by decide
  exact asciiPoints_append.mpr ⟨asciiPoints_rendered summary, hbreak⟩

/-- The report can be written where it is wanted. -/
def OutputSavable : Prop := ∀ path, arguments.jsonOutput = some path → Store.Savable store path

theorem writeReport_ok_iff (summary : Report) :
    (writeReport store arguments.jsonOutput (rendered summary ++ text "\n")).2 = .ok () ↔
      OutputSavable arguments store := by
  unfold writeReport OutputSavable
  cases arguments.jsonOutput with
  | none => simp
  | some path =>
      rw [isSome_encodeText_printed, Store.save_ok_iff]
      simp

variable {arguments store} in
theorem status_report_eq_zero_iff {baseline candidate : Finset Pair × List (List Char)} :
    (report arguments store baseline candidate).ending.status = 0 ↔
      OutputSavable arguments store ∧
        arguments.requireNew ≤ ((candidate.1 : Set Pair) \ baseline.1).ncard := by
  have hcount : ((candidate.1 : Set Pair) \ baseline.1).ncard =
      (comparePairSets baseline.1 candidate.1).newPairCount := by
    rw [← Finset.coe_sdiff, Set.ncard_coe_finset]
    rfl
  have hwrite := writeReport_ok_iff arguments store
    ⟨comparePairSets baseline.1 candidate.1, baseline.2, candidate.2⟩
  rw [hcount, ← hwrite, report]
  dsimp only
  generalize hresult : writeReport store arguments.jsonOutput _ = result
  obtain ⟨written, outcome⟩ := result
  cases outcome with
  | error fault => simp [Ending.status]
  | ok _ =>
      dsimp only
      split
      · rename_i hfew
        exact iff_of_false Nat.one_ne_zero fun h => Nat.not_lt.mpr h.2 hfew
      · rename_i henough
        exact iff_of_true rfl ⟨rfl, Nat.not_lt.mp henough⟩

/-- The tool reports success exactly when both runs can be read, the report can be written
and the candidate holds as many triples that the baseline does not hold as are required. -/
theorem status_main_eq_zero_iff :
    (main python arguments store).ending.status = 0 ↔
      BothLoad python arguments ∧ OutputSavable arguments store ∧
        arguments.requireNew ≤
          (candidatePairs python arguments \ baselinePairs python arguments).ncard := by
  rcases main_cases python arguments store with
    ⟨hload, baseline, candidate, files, files', hmain, hbaseline, hcandidate, _⟩ |
      ⟨hload, fault, hmain⟩
  · rw [hmain, status_report_eq_zero_iff, hbaseline, hcandidate]
    exact (and_iff_right hload).symm
  · rw [hmain]
    refine iff_of_false ?_ fun h => hload h.1
    exact Nat.one_ne_zero

/-! ## The report -/

/-- A report gives the sizes of the two sets of triples and of what is made of them, some of
the new triples, and the names of all result files. -/
structure IsReportOf (shown : Report) : Prop where
  baseline_count : shown.summary.baselinePairCount = (baselinePairs python arguments).ncard
  candidate_count : shown.summary.candidatePairCount = (candidatePairs python arguments).ncard
  new_count : shown.summary.newPairCount =
    (candidatePairs python arguments \ baselinePairs python arguments).ncard
  union_count : shown.summary.unionPairCount =
    (baselinePairs python arguments ∪ candidatePairs python arguments).ncard
  missing_count : shown.summary.baselinePairsNotReplayed =
    (baselinePairs python arguments \ candidatePairs python arguments).ncard
  examples_length : shown.summary.newPairExamples.length = min 20 shown.summary.newPairCount
  examples : ∀ pair' ∈ shown.summary.newPairExamples,
    ∃ pair ∈ candidatePairs python arguments \ baselinePairs python arguments,
      pair' = ⟨pair.1, formatAddress pair.2.1, formatAddress pair.2.2⟩
  baseline_files : shown.baselineFiles.Perm
    ((rootFiles arguments.baseline.1 arguments.baseline.2).map Prod.fst)
  candidate_files : shown.candidateFiles.Perm
    ((rootFiles arguments.candidate.1 arguments.candidate.2).map Prod.fst)

variable {python arguments} in
theorem isReportOf {baseline candidate : Finset Pair} {files files' : List (List Char)}
    (hbaseline : (baseline : Set Pair) = baselinePairs python arguments)
    (hcandidate : (candidate : Set Pair) = candidatePairs python arguments)
    (hfiles : files.Perm ((rootFiles arguments.baseline.1 arguments.baseline.2).map Prod.fst))
    (hfiles' : files'.Perm ((rootFiles arguments.candidate.1 arguments.candidate.2).map Prod.fst)) :
    IsReportOf python arguments ⟨comparePairSets baseline candidate, files, files'⟩ where
  baseline_count := by
    rw [← hbaseline, Set.ncard_coe_finset]
    rfl
  candidate_count := by
    rw [← hcandidate, Set.ncard_coe_finset]
    rfl
  new_count := by
    rw [← hbaseline, ← hcandidate, ← Finset.coe_sdiff, Set.ncard_coe_finset]
    rfl
  union_count := by
    rw [← hbaseline, ← hcandidate, ← Finset.coe_union, Set.ncard_coe_finset]
    rfl
  missing_count := by
    rw [← hbaseline, ← hcandidate, ← Finset.coe_sdiff, Set.ncard_coe_finset]
    rfl
  examples_length := (newPairExamples_comparePairSets baseline candidate).1
  examples := by
    intro pair' hpair'
    obtain ⟨pair, hmem, hnew, hshown⟩ :=
      (newPairExamples_comparePairSets baseline candidate).2 pair' hpair'
    rw [← hbaseline, ← hcandidate]
    exact ⟨pair, ⟨Finset.mem_coe.mpr hmem, fun h => hnew (Finset.mem_coe.mp h)⟩, hshown⟩
  baseline_files := hfiles
  candidate_files := hfiles'

theorem stdout_report (baseline candidate : Finset Pair × List (List Char)) :
    (report arguments store baseline candidate).stdout =
      rendered ⟨comparePairSets baseline.1 candidate.1, baseline.2, candidate.2⟩ ++ text "\n" := by
  unfold report
  dsimp only
  split
  · rfl
  · split
    · rfl
    · rfl

theorem store_report (baseline candidate : Finset Pair × List (List Char)) :
    (report arguments store baseline candidate).store =
      (writeReport store arguments.jsonOutput
        (rendered ⟨comparePairSets baseline.1 candidate.1, baseline.2, candidate.2⟩ ++ text "\n")).1 := by
  unfold report
  dsimp only
  split
  · rename_i heq
    rw [heq]
  · rename_i heq
    rw [heq]
    split
    · rfl
    · rfl

/-- What the output holds of what is printed: the bytes that decode to it, or nothing that
can be read back. -/
def HoldsPrinted (left : Store (List Char) τ) (path : List (List Char)) (printed : Name) : Prop :=
  left path = some .special ∨
    ∃ bytes, left path = some (.file bytes) ∧ (utf8Decode bytes).map pyStr = some printed

theorem holdsPrinted_writeReport (summary : Report) {path : List (List Char)}
    (hpath : arguments.jsonOutput = some path) (hsavable : Store.Savable store path) :
    HoldsPrinted (writeReport store arguments.jsonOutput (rendered summary ++ text "\n")).1 path
      (rendered summary ++ text "\n") := by
  have hbreak : AsciiPoints (text "\n") := by decide
  have hascii : AsciiPoints (rendered summary ++ text "\n") :=
    asciiPoints_append.mpr ⟨asciiPoints_rendered summary, hbreak⟩
  have hbytes : utf8Decode ((rendered summary ++ text "\n").map Char.ofNat) =
      some ((rendered summary ++ text "\n").map Char.ofNat) := by
    apply utf8Decode_of_isAscii
    intro c hc
    obtain ⟨point, hpoint, rfl⟩ := List.mem_map.mp hc
    have hsmall := hascii point hpoint
    rwa [toNat_byte (by omega)]
  have hback : pyStr ((rendered summary ++ text "\n").map Char.ofNat) =
      rendered summary ++ text "\n" := pyStr_map_ofNat hascii
  rw [hpath, writeReport, isSome_encodeText_printed]
  have hsaved := Store.save_ok_self (Store.save_ok_iff.mpr ⟨hsavable, rfl⟩ :
    (Store.save store path (some ((rendered summary ++ text "\n").map Char.ofNat))).2 = .ok ())
  rcases hsaved with hfile | hspecial
  · refine Or.inr ⟨_, hfile, ?_⟩
    rw [hbytes, Option.map_some, hback]
  · exact Or.inl hspecial

/-- Either a run cannot be read and there is no output at all, or what is printed is read
back as one report and no other, which is the one of the two runs; it is also what the
output file holds, whether or not the number of new pairs is sufficient. -/
theorem main_reports :
    (¬ BothLoad python arguments ∧ (main python arguments store).stdout = [] ∧
        (main python arguments store).store = store) ∨
      BothLoad python arguments ∧ ∃ shown, IsReportOf python arguments shown ∧
        (∀ other, loads (main python arguments store).stdout = some (reportValue other) ↔
          other = shown) ∧
        ∀ path, arguments.jsonOutput = some path → Store.Savable store path →
          HoldsPrinted (main python arguments store).store path (main python arguments store).stdout := by
  rcases main_cases python arguments store with
    ⟨hload, baseline, candidate, files, files', hmain, hbaseline, hcandidate, hfiles, hfiles'⟩ |
      ⟨hload, fault, hmain⟩
  · refine Or.inr ⟨hload, _, isReportOf hbaseline hcandidate hfiles hfiles', ?_, ?_⟩
    · intro other
      rw [hmain, stdout_report, loads_rendered _ (by decide), Option.some.injEq]
      exact ⟨fun h => (reportValue_injective h).symm, fun h => congrArg reportValue h.symm⟩
    · intro path hpath hsavable
      rw [hmain, stdout_report, store_report]
      exact holdsPrinted_writeReport arguments store _ hpath hsavable
  · rw [hmain]
    exact Or.inl ⟨hload, rfl, rfl⟩

/-- What the exit status says of the two runs, and what can be read of them in the output. -/
theorem main_exits_and_reports :
    ((main python arguments store).ending.status = 0 ↔
      BothLoad python arguments ∧ OutputSavable arguments store ∧
        arguments.requireNew ≤
          (candidatePairs python arguments \ baselinePairs python arguments).ncard) ∧
    ((¬ BothLoad python arguments ∧ (main python arguments store).stdout = [] ∧
        (main python arguments store).store = store) ∨
      BothLoad python arguments ∧ ∃ shown, IsReportOf python arguments shown ∧
        (∀ other, loads (main python arguments store).stdout = some (reportValue other) ↔
          other = shown) ∧
        ∀ path, arguments.jsonOutput = some path → Store.Savable store path →
          HoldsPrinted (main python arguments store).store path
            (main python arguments store).stdout) :=
  ⟨status_main_eq_zero_iff python arguments store, main_reports python arguments store⟩

end Main

end Icflow.Compare
