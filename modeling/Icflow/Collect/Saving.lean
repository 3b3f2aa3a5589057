import Icflow.Collect.Accounting
import Icflow.Collect.Artifacts

set_option autoImplicit false

/-!
# What is saved when a package counts as done

`if ! process_package "$url"` suspends the errexit option in the whole call, so the file
operations of `process_package` and `collect_artifacts` follow one another whatever
becomes of them.  `packageOperations` lists them, and `attempts` pairs each with its
outcome.
-/

namespace Icflow.Collect

open Icflow.Foundation
open Icflow.Wrap

/-- The file operations of a call of `process_package`. -/
inductive Operation where
  /-- `mkdir -p "$package_output"` -/
  | makeOutput
  /-- `write_instrumented_pkgbuild` -/
  | writePkgbuild
  /-- `mkdir -p "$package_output/artifacts"` -/
  | makeArtifacts
  /-- `mkdir -p "$(dirname "$destination")"` -/
  | makeParent (destination : Path)
  /-- `cp` -/
  | copy (file : Copy)

/-- The operations for one file. -/
def Copy.operations (file : Copy) : List Operation := [.makeParent file.destination, .copy file]

/-- The files that one iteration of `collect_artifacts` copies. -/
def Artifact.files (artifact : Artifact) : List Copy := artifact.result :: artifact.binary.toList

/-- The files of the results that `find` reports. -/
def artifactFiles (repositoryDir packageOutput : Path) (fs : FileSystem) (found : List Path) :
    List Copy :=
  (found.filterMap (artifactOf repositoryDir packageOutput fs)).flatMap Artifact.files

/-- `collect_artifacts`. -/
def collectArtifacts (repositoryDir packageOutput : Path) (fs : FileSystem) (found : List Path) :
    List Operation :=
  .makeArtifacts :: (artifactFiles repositoryDir packageOutput fs found).flatMap Copy.operations

/-- The outcomes of operations that follow one another whatever becomes of them. -/
def attempts (succeeds : Nat → Bool) (operations : List Operation) : List (Operation × Bool) :=
  operations.zipIdx.map fun entry => (entry.1, succeeds entry.2)

/-- `tee -a` cannot open its log in a directory that could not be made. -/
def Commands.logged (commands : Commands) (made : Bool) : Commands :=
  { commands with
    cloneSucceeds := commands.cloneSucceeds && made
    buildSucceeds := commands.buildSucceeds && made }

/-- The call gets to its instrumented tests. -/
def reachesTests (machine : Machine) (commands : Commands) (url : Url) (s : Collection) : Bool :=
  ((s.checkouts (packageDirectory machine url)).isSome || commands.cloneSucceeds) &&
    (commands.hasPkgbuild && (commands.buildSucceeds && commands.hasSource))

section Saving

variable (machine : Machine) (commands : Commands) (succeeds : Nat → Bool) (url : Url)
  (s : Collection) (repositoryDir packageOutput : Path) (fs : FileSystem) (found : List Path)

/-- The file operations of a call of `process_package`, in their order. -/
def packageOperations : List Operation :=
  if reachesTests machine (commands.logged (succeeds 0)) url s then
    .makeOutput :: .writePkgbuild :: collectArtifacts repositoryDir packageOutput fs found
  else [.makeOutput]

/-- They are done, and with these outcomes. -/
def packageAttempts : List (Operation × Bool) :=
  attempts succeeds
    (packageOperations machine commands succeeds url s repositoryDir packageOutput fs found)

/-- The iteration of the main loop for the package. -/
def iterateSaving : Collection × Nat :=
  iterate machine (commands.logged (succeeds 0)) url s

/-- The call reports success, upon which nothing is appended to `failed_urls.txt`. -/
def recorded : Bool :=
  (processPackage machine (commands.logged (succeeds 0)) url s).succeeds

/-- A package that is recorded has its results and binaries copied; one with a failed
operation goes to `failed_urls.txt` and not to `processed_urls.txt`. -/
structure SavedWhenRecorded : Prop where
  saved : recorded machine commands succeeds url s = true → ∀ path ∈ found,
    ∃ artifact binary, artifactOf repositoryDir packageOutput fs path = some artifact ∧
      artifact.binary = some binary ∧ ∀ file ∈ [artifact.result, binary],
        (.copy file, true) ∈
          packageAttempts machine commands succeeds url s repositoryDir packageOutput fs found
  retried : (∃ operation, (operation, false) ∈
      packageAttempts machine commands succeeds url s repositoryDir packageOutput fs found) →
    recorded machine commands succeeds url s = false ∧
      (iterateSaving machine commands succeeds url s).1.failed = s.failed ++ echoed url ∧
        (iterateSaving machine commands succeeds url s).1.processed = s.processed

end Saving

/-! ## Outcomes -/

theorem mem_attempts {succeeds : Nat → Bool} {operations : List Operation} {operation : Operation}
    {outcome : Bool} :
    (operation, outcome) ∈ attempts succeeds operations ↔
      ∃ i, operations[i]? = some operation ∧ succeeds i = outcome := by
  unfold attempts
  constructor
  · intro h
    obtain ⟨⟨found, i⟩, hmem, heq⟩ := List.mem_map.mp h
    obtain ⟨rfl, rfl⟩ := Prod.mk.inj heq
    exact ⟨i, List.mem_zipIdx_iff_getElem?.mp hmem, rfl⟩
  · rintro ⟨i, hget, rfl⟩
    exact List.mem_map.mpr ⟨(operation, i), List.mem_zipIdx_iff_getElem?.mpr hget, rfl⟩

/-- No operation fails. -/
theorem forall_attempts_iff {succeeds : Nat → Bool} {operations : List Operation} :
    (∀ operation, (operation, false) ∉ attempts succeeds operations) ↔
      ∀ i < operations.length, succeeds i = true := by
  constructor
  · intro h i hi
    rw [← Bool.not_eq_false]
    intro hfail
    exact h _ (mem_attempts.mpr ⟨i, List.getElem?_eq_getElem hi, hfail⟩)
  · intro h operation hmem
    obtain ⟨i, hget, hfail⟩ := mem_attempts.mp hmem
    obtain ⟨hi, _⟩ := List.getElem?_eq_some_iff.mp hget
    rw [h i hi] at hfail
    cases hfail

theorem mem_attempts_of_forall {succeeds : Nat → Bool} {operations : List Operation}
    (h : ∀ i < operations.length, succeeds i = true) {operation : Operation}
    (hmem : operation ∈ operations) : (operation, true) ∈ attempts succeeds operations := by
  obtain ⟨i, hi, rfl⟩ := List.mem_iff_getElem.mp hmem
  exact mem_attempts.mpr ⟨i, List.getElem?_eq_getElem hi, h i hi⟩

/-! ## One call -/

section Saving

variable {machine : Machine} {commands : Commands} {succeeds : Nat → Bool} {url : Url}
  {s : Collection} {repositoryDir packageOutput : Path} {fs : FileSystem} {found : List Path}

theorem processPackage_succeeds (machine : Machine) (commands : Commands) (url : Url)
    (s : Collection) :
    (processPackage machine commands url s).succeeds =
      (reachesTests machine commands url s && commands.executed) := by
  unfold processPackage
  simp only
  split
  · rename_i hclone
    simp [reachesTests, hclone.1, hclone.2]
  · rename_i hclone
    have hcheckout : ((s.checkouts (packageDirectory machine url)).isSome ||
        commands.cloneSucceeds) = true := by
      rw [Bool.or_eq_true, Option.isSome_iff_ne_none]
      by_contra h
      rw [not_or, not_not] at h
      exact hclone h
    split
    · rename_i hpkgbuild
      simp [reachesTests, hpkgbuild]
    · rename_i hpkgbuild
      split
      · rename_i hbuild
        have hboth : (commands.buildSucceeds && commands.hasSource) = false := by
          rw [Bool.and_eq_false_iff]
          simpa using hbuild
        simp [reachesTests, hboth]
      · rename_i hbuild
        rw [not_or, not_not, not_not] at hbuild
        rw [not_not] at hpkgbuild
        have hreaches : reachesTests machine commands url s = true := by
          rw [reachesTests, hcheckout, hpkgbuild, hbuild.1, hbuild.2]
          rfl
        split
        · rename_i hexecuted
          simp [hexecuted]
        · rename_i hexecuted
          rw [not_not] at hexecuted
          simp [hreaches, hexecuted]

/-- What the main loop does with a package that it hands to `process_package`. -/
theorem iterate_bookkeeping (machine : Machine) (succeeds : Nat → Bool)
    (hgrep : (grepProcessed commands url s).1 = false) :
    if recorded machine commands succeeds url s then
      (iterateSaving machine commands succeeds url s).1.failed = s.failed ∧
        (iterateSaving machine commands succeeds url s).1.processed =
          s.processed.appendAll (echoed url)
    else
      (iterateSaving machine commands succeeds url s).1.failed = s.failed ++ echoed url ∧
        (iterateSaving machine commands succeeds url s).1.processed = s.processed := by
  obtain ⟨hfailed, _, hprocessed⟩ :=
    processPackage_bookkeeping machine (commands.logged (succeeds 0)) url s
  have hgrep' : (grepProcessed (commands.logged (succeeds 0)) url s).1 = false := hgrep
  unfold iterateSaving iterate recorded
  simp only [hgrep', Bool.false_eq_true, if_false]
  cases hsucceeds : (processPackage machine (commands.logged (succeeds 0)) url s).succeeds with
  | true =>
      rw [hsucceeds] at hprocessed
      simp only [if_true] at hprocessed ⊢
      exact ⟨hfailed, hprocessed⟩
  | false =>
      rw [hsucceeds] at hprocessed
      simp only [Bool.false_eq_true, if_false] at hprocessed ⊢
      exact ⟨by rw [hfailed], hprocessed⟩

theorem mem_artifactFiles {path : Path} {artifact : Artifact} (hpath : path ∈ found)
    (hartifact : artifactOf repositoryDir packageOutput fs path = some artifact) {file : Copy}
    (hfile : file ∈ artifact.files) :
    file ∈ artifactFiles repositoryDir packageOutput fs found :=
  List.mem_flatMap.mpr ⟨artifact, List.mem_filterMap.mpr ⟨path, hpath, hartifact⟩, hfile⟩

theorem copy_mem_collectArtifacts {file : Copy} :
    .copy file ∈ collectArtifacts repositoryDir packageOutput fs found ↔
      file ∈ artifactFiles repositoryDir packageOutput fs found := by
  simp [collectArtifacts, Copy.operations]

theorem readRegular_isSome {path : Path} :
    (readRegular fs path).isSome = true ↔ isRegular fs path = true := by
  unfold readRegular isRegular
  cases lookup fs path with
  | none => simp
  | some node => cases node <;> simp

theorem artifactOf_eq (repositoryDir packageOutput : Path) {source path : Path}
    (hcollected : Collected source fs path) :
    ∃ text, artifactOf repositoryDir packageOutput fs path = some
      { result := ⟨destination repositoryDir packageOutput path, text⟩
        binary := (readRegular fs (binaryOf fs path)).map fun bytes =>
          ⟨destination repositoryDir packageOutput (binaryOf fs path), bytes⟩ } := by
  obtain ⟨_, _, text, mode, hfile, _⟩ := hcollected
  have hread : readRegular fs path = some text := by
    rw [readRegular, lookup_of_file hfile]
  refine ⟨text, ?_⟩
  simp only [artifactOf, hread]

end Saving

/-- A package is recorded only with its results saved exactly when, unless it fails for
another reason, every file operation succeeds and every result has its binary at hand. -/
theorem savedWhenRecorded_iff (machine : Machine) (commands : Commands) (succeeds : Nat → Bool)
    (url : Url) (s : Collection) (source repositoryDir packageOutput : Path) (fs : FileSystem)
    (found : List Path) (hfound : ∀ path ∈ found, Collected source fs path)
    (hgrep : (grepProcessed commands url s).1 = false) :
    SavedWhenRecorded machine commands succeeds url s repositoryDir packageOutput fs found ↔
      (reachesTests machine (commands.logged (succeeds 0)) url s = true →
        commands.executed = true →
        (∀ i < (collectArtifacts repositoryDir packageOutput fs found).length + 2,
          succeeds i = true) ∧
        ∀ path ∈ found, isRegular fs (binaryOf fs path) = true) := by
  have hbooks := iterate_bookkeeping machine succeeds hgrep
  have hlength : reachesTests machine (commands.logged (succeeds 0)) url s = true →
      (packageOperations machine commands succeeds url s repositoryDir packageOutput fs
        found).length = (collectArtifacts repositoryDir packageOutput fs found).length + 2 := by
    intro hreaches
    rw [packageOperations, if_pos hreaches]
    rfl
  have hrecorded : recorded machine commands succeeds url s =
      (reachesTests machine (commands.logged (succeeds 0)) url s && commands.executed) :=
    processPackage_succeeds machine (commands.logged (succeeds 0)) url s
  constructor
  · intro h hreaches hexecuted
    have hrecord : recorded machine commands succeeds url s = true := by
      rw [hrecorded, hreaches, hexecuted]
      rfl
    refine ⟨?_, ?_⟩
    · rw [← hlength hreaches, ← forall_attempts_iff]
      intro operation hfailed
      have hretried := (h.retried ⟨operation, hfailed⟩).1
      rw [hrecord] at hretried
      cases hretried
    · intro path hpath
      obtain ⟨artifact, binary, hartifact, hbinary, _⟩ := h.saved hrecord path hpath
      obtain ⟨text, heq⟩ := artifactOf_eq repositoryDir packageOutput (hfound path hpath)
      obtain rfl := Option.some.inj (hartifact.symm.trans heq)
      obtain ⟨bytes, hbytes, _⟩ := Option.map_eq_some_iff.mp hbinary
      exact readRegular_isSome.mp (Option.isSome_iff_exists.mpr ⟨bytes, hbytes⟩)
  · intro h
    refine ⟨?_, ?_⟩
    · intro hrecord path hpath
      rw [hrecorded, Bool.and_eq_true] at hrecord
      obtain ⟨hall, hbinaries⟩ := h hrecord.1 hrecord.2
      obtain ⟨text, hartifact⟩ := artifactOf_eq repositoryDir packageOutput (hfound path hpath)
      obtain ⟨bytes, hbytes⟩ :=
        Option.isSome_iff_exists.mp (readRegular_isSome.mpr (hbinaries path hpath))
      rw [hbytes, Option.map_some] at hartifact
      refine ⟨_, _, hartifact, rfl, ?_⟩
      intro file hfile
      rw [← hlength hrecord.1] at hall
      apply mem_attempts_of_forall hall
      rw [packageOperations, if_pos hrecord.1]
      have hcopied := copy_mem_collectArtifacts.mpr (mem_artifactFiles hpath hartifact hfile)
      exact List.mem_cons_of_mem _ (List.mem_cons_of_mem _ hcopied)
    · rintro ⟨operation, hfailed⟩
      have hrecord : recorded machine commands succeeds url s = false := by
        rw [← Bool.not_eq_true]
        intro hrecord
        rw [hrecorded, Bool.and_eq_true] at hrecord
        have hall := (h hrecord.1 hrecord.2).1
        rw [← hlength hrecord.1] at hall
        exact forall_attempts_iff.mpr hall operation hfailed
      rw [hrecord] at hbooks
      exact ⟨hrecord, hbooks⟩

/-- A source directory with a program and its one result. -/
def savedTree : FileSystem := fun path =>
  if path = "/w/src/x".toList then some (.file ['\x7f', 'E', 'L', 'F'] 0o755)
  else if path = "/w/src/x_icall.json".toList then some (.file "{1}\n".toList 0o644)
  else none

theorem savedTree_collected :
    ∀ path ∈ ["/w/src/x_icall.json".toList], Collected "/w/src".toList savedTree path := by
  intro path hpath
  rw [List.mem_singleton.mp hpath]
  exact ⟨by decide, by decide, _, _, rfl, by decide⟩

theorem savedWhenRecorded_iff_sample :
    SavedWhenRecorded sampleMachine greedyCommands (fun _ => true) firstUrl .empty "/w".toList
        "/o".toList savedTree ["/w/src/x_icall.json".toList] ∧
      recorded sampleMachine greedyCommands (fun _ => true) firstUrl .empty = true := by
  refine ⟨?_, by decide⟩
  apply (savedWhenRecorded_iff sampleMachine greedyCommands (fun _ => true) firstUrl .empty
    "/w/src".toList "/w".toList "/o".toList savedTree _ savedTree_collected (by decide)).mpr
  intro _ _
  exact ⟨fun _ _ => rfl, by decide⟩

/-- When `cp` fails for the result, the package is recorded all the same. -/
theorem not_savedWhenRecorded_cp :
    ¬ SavedWhenRecorded sampleMachine greedyCommands (fun i => i != 4) firstUrl .empty
        "/w".toList "/o".toList savedTree ["/w/src/x_icall.json".toList] := by
  intro h
  have hfailed : (packageAttempts sampleMachine greedyCommands (fun i => i != 4) firstUrl .empty
      "/w".toList "/o".toList savedTree ["/w/src/x_icall.json".toList])[4]? =
        some (.copy ⟨"/o/artifacts/src/x_icall.json".toList, "{1}\n".toList⟩, false) := rfl
  have hrecorded := (h.retried ⟨_, List.mem_of_getElem? hfailed⟩).1
  exact absurd hrecorded (by decide)

end Icflow.Collect
