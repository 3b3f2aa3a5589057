import Icflow.Generate.InputProject

set_option autoImplicit false

/-!
# Runs without `--force`

The output directory is empty, so there are no links below it and everything that is
written is new: whatever a run does, the files that were there before stay.
-/

namespace Icflow.Generate

open Icflow.Foundation

variable {lower : Name → Name} {disk : Disk} {projectRoot outputDir : Path} {fs : FileSystem}
  {root : Path} {rootKey : Key}

/-- An existing file is not inside an output directory that is accepted without `--force`. -/
theorem not_inside_of_file (hprepare : prepareOutputDirectory disk outputDir false = .ok (fs, root))
    (hprepared : Prepared disk outputDir fs root rootKey) {key : Key} {bytes : List Char}
    (hfile : disk.store key = some (.file bytes)) : ¬ rootKey <+: key := by
  intro hinside
  by_cases hroot : rootKey = key
  · rcases hprepared.passable key (by rw [hroot]) with hnone | hdirectory
    · rw [hnone] at hfile
      cases hfile
    · rw [hdirectory] at hfile
      cases hfile
  · rw [nothing_below_output hprepare hprepared rfl ⟨hinside, hroot⟩] at hfile
    cases hfile

/-- A report goes straight into the output directory. -/
theorem report_inside (hprepare : prepareOutputDirectory disk outputDir false = .ok (fs, root))
    (hprepared : Prepared disk outputDir fs root rootKey) {name : Name} (hname : name ≠ dotdot)
    {report : Key} (hleads : leadsTo fs (root ++ [name]) = some report) : rootKey <+: report := by
  rw [leadsTo_congr (hprepared.touches ∅).link] at hleads
  obtain ⟨path, hpath, hreport⟩ := Option.bind_eq_some_iff.mp hleads
  have hdots : dotdot ∉ [name] := fun h => hname (List.mem_singleton.mp h).symm
  obtain ⟨_, rfl⟩ := (resolve_below_output hprepare hprepared rfl hdots).mp hpath
  exact (above_of_encodePath (List.cons_ne_nil _ _) hprepared.encodes hreport).1

/-- Without `--force` every file that was there before a run is there after it with the
same bytes, however the run ends. -/
theorem kept_without_force (lower : Name → Name) (printer : Printer) (disk : Disk)
    (project : Project) (limits : Limits) (outputDir : Path) (response : Response) {key : Key}
    {bytes : List Char} (hfile : disk.store key = some (.file bytes)) :
    (writeResults lower printer disk project limits outputDir response false).1 key =
      some (.file bytes) := by
  refine writeResults_keeps ⟨?_, ?_, ?_⟩ hfile response
  · rintro fs root ⟨_, _, hprepare⟩ name ⟨_, target, hsafe, hkey⟩
    obtain ⟨rootKey, hprepared, _⟩ := prepareOutputDirectory_eq_ok hprepare
    obtain ⟨found, hfound, hinside⟩ := safeGeneratedPath_eq_ok hprepared hsafe
    obtain rfl := Option.some.inj (hkey.symm.trans hfound)
    exact not_inside_of_file hprepare hprepared hfile hinside
  · rintro fs root ⟨_, _, hprepare⟩ hleads
    obtain ⟨rootKey, hprepared, _⟩ := prepareOutputDirectory_eq_ok hprepare
    exact not_inside_of_file hprepare hprepared hfile
      (report_inside hprepare hprepared (by decide) hleads)
  · rintro fs root ⟨_, _, hprepare⟩ report _ _ hleads
    obtain ⟨rootKey, hprepared, _⟩ := prepareOutputDirectory_eq_ok hprepare
    exact not_inside_of_file hprepare hprepared hfile
      (report_inside hprepare hprepared (by decide) hleads)

/-- The tests for the project `p` go to `out`, and a file `a.c` of the project stays when one
of that name is written. -/
theorem kept_without_force_smallProject :
    (writeResults asciiLower plainPrinter smallDisk smallProject Limits.default [text "out"]
        (responseOf threeFiles []) false).1 [['o', 'u', 't'], ['t'], ['a', '.', 'c']] =
      some (.file ['x']) ∧
    (writeResults asciiLower plainPrinter smallDisk smallProject Limits.default [text "out"]
        (responseOf threeFiles []) false).1 [['p'], ['s', 'r', 'c'], ['a', '.', 'c']] =
      some (.file ['s']) := by
  refine ⟨?_, kept_without_force asciiLower plainPrinter smallDisk smallProject Limits.default
    [text "out"] _ rfl⟩
  have hresolve : resolve smallDisk.store [text "out"] = some [text "out"] := by decide
  rw [writeResults_of_eligible hresolve (by decide) (selectProjectFiles_smallProject _)]
  decide +kernel

end Icflow.Generate
