import Icflow.Generate.Materialized
import Icflow.Generate.Reports

set_option autoImplicit false

/-!
# Generated files and the two reports

The names of the reports are refused as names of generated files, but only as whole
names: a generated file can still be below such a name, and a link can lead a name to a
report.
-/

namespace Icflow.Generate

open Icflow.Foundation

/-- An entry leads to `key`, by the links on disk before the run. -/
def EntryKey (disk : Disk) (root : Path) (entries : List FileEntry) (key : Key) : Prop :=
  ∃ entry ∈ entries, ∃ place, placeOf disk root entry = some place ∧ encodePath place = some key

/-- A report is out of the way of the entries and can be written, by what is on disk before
the run: it is a file, or there is nothing and the directory it goes into is there or is
made for the output directory or for an entry. -/
def ReportClear (printer : Printer) (disk : Disk) (root : Path) (rootKey : Key)
    (entries : List FileEntry) (path : Path) (value : Json Nat) : Prop :=
  ∃ report, leadsTo disk.store path = some report ∧
    (∀ key, EntryKey disk root entries key → ¬ report <+: key) ∧
    ((∃ bytes, disk.store report = some (.file bytes)) ∨ disk.store report = some .special ∨
      (disk.store report = none ∧ ¬ report <+: rootKey) ∧
        ((disk.store report.dropLast = some .directory ∨ report.dropLast <+: rootKey) ∨
          ∃ key, EntryKey disk root entries key ∧ Store.Above report.dropLast key)) ∧
    Printable printer value

/-- Neither report is in the way of the suite. -/
def ReportsClear (printer : Printer) (disk : Disk) (outputDir : Path)
    (response : Response) : Prop :=
  ∀ entries root rootKey, validateGeneratedSuite response.generated = .ok entries →
    resolve disk.store outputDir = some root → encodePath root = some rootKey →
    ReportClear printer disk root rootKey entries (root ++ [generationName]) response.generated ∧
      ReportClear printer disk root rootKey entries (root ++ [metadataName]) response.metadata

/-- No generated file is a report or below one, and writing the reports succeeds and
changes no generated file. -/
structure Undisturbed (printer : Printer) (outputDir : Path) (response : Response)
    (fs' : FileSystem) (written : List Path) (root : Path) : Prop where
  resolves : resolve fs' outputDir = some root
  apart : ∀ name ∈ reservedOutputNames, ∀ report, leadsTo fs' (root ++ [name]) = some report →
    ∀ target ∈ written, ∀ key, encodePath target = some key → ¬ report <+: key
  succeeds : (writeReports printer fs' root response).2 = .ok ()
  keeps : ∀ target ∈ written, ∀ key, encodePath target = some key →
    (writeReports printer fs' root response).1 key = fs' key

/-! ## When the reports are out of the way -/

variable {lower : Name → Name} {printer : Printer} {disk : Disk} {outputDir : Path}
  {generated : Json Nat} {force : Bool} {fs fs' : FileSystem} {root : Path} {rootKey : Key} {entries : List FileEntry}
  {written : List Path} {done : List (Key × List Char)}

theorem Materialized.entryKey_iff
    (h : Materialized lower disk outputDir generated force fs' written entries fs root rootKey done)
    {key : Key} : EntryKey disk root entries key ↔ ∃ target ∈ written, encodePath target = some key := by
  constructor
  · rintro ⟨entry, hentry, place, hplace, hkey⟩
    exact ⟨place, h.mem_written_iff.mpr ⟨entry, hentry, hplace⟩, hkey⟩
  · rintro ⟨target, htarget, hkey⟩
    obtain ⟨entry, hentry, hplace⟩ := h.mem_written_iff.mp htarget
    exact ⟨entry, hentry, target, hplace, hkey⟩

/-- What has been saved is what the entries lead to. -/
theorem Materialized.exists_saved_iff
    (h : Materialized lower disk outputDir generated force fs' written entries fs root rootKey done)
    {p : Key → Prop} :
    (∃ save ∈ done, p save.1) ↔ ∃ key, EntryKey disk root entries key ∧ p key := by
  have hkeys : ∀ key, key ∈ done.map Prod.fst ↔ EntryKey disk root entries key := fun key => by
    rw [h.mem_saved_iff, h.entryKey_iff, List.mem_map]
  simp only [← hkeys, List.mem_map, exists_exists_and_eq_and]

/-- What is clear before the suite is saved can be written afterwards. -/
theorem Materialized.reportClear_iff
    (h : Materialized lower disk outputDir generated force fs' written entries fs root rootKey done)
    {path : Path} {value : Json Nat} :
    ReportClear printer disk root rootKey entries path value ↔
      (∀ report, leadsTo fs' path = some report → ∀ target ∈ written, ∀ key,
        encodePath target = some key → ¬ report <+: key) ∧ Writable printer fs' path value := by
  rw [Writable, leadsTo_congr h.touches.link]
  cases hreport : leadsTo disk.store path with
  | none => simp [ReportClear, hreport]
  | some report =>
      have htargets : (∀ target ∈ written, ∀ key, encodePath target = some key → ¬ report <+: key) ↔
          ∀ key, EntryKey disk root entries key → ¬ report <+: key := by
        simp only [h.entryKey_iff, forall_exists_index, and_imp]
        exact ⟨fun hclear key target htarget => hclear target htarget key,
          fun hclear target htarget key => hclear key target htarget⟩
      have happart : (∀ key, EntryKey disk root entries key → ¬ report <+: key) →
          ∀ save ∈ done, ¬ Store.Above report save.1 := by
        intro hclear save hsave habove
        obtain ⟨key, hkey, hinside⟩ := h.exists_saved_iff.mp ⟨save, hsave, habove⟩
        exact hclear key hkey hinside.1
      by_cases hempty : report = []
      · subst hempty
        have hclosed : ¬ Store.Openable fs' [] := by
          rw [h.after, Store.Openable, Store.outcome_of_directory h.prepared.wellFormed.root]
          simp
        simp [ReportClear, hreport, disk.wellFormed.root, hclosed]
      · have hopen := h.saved.openable_outcome_iff hempty
        simp only [← h.after, h.exists_saved_iff, h.prepared.special_iff, h.prepared.none_iff,
          h.prepared.directory_iff,
          fun bytes => (h.prepared.touches ∅).file report (Set.notMem_empty report) bytes] at hopen
        simp only [ReportClear, hreport, Option.some.injEq, exists_eq_left', forall_eq', htargets,
          hopen]
        constructor
        · rintro ⟨hclear, hfile | hspecial | ⟨hnone, hparent⟩, hclean⟩
          · exact ⟨hclear, Or.inl hfile, hclean⟩
          · exact ⟨hclear, Or.inr (Or.inl hspecial), hclean⟩
          · exact ⟨hclear, Or.inr (Or.inr ⟨hnone, happart hclear, hparent⟩), hclean⟩
        · rintro ⟨hclear, hfile | hspecial | ⟨hnone, _, hparent⟩, hclean⟩
          · exact ⟨hclear, Or.inl hfile, hclean⟩
          · exact ⟨hclear, Or.inr (Or.inl hspecial), hclean⟩
          · exact ⟨hclear, Or.inr (Or.inr ⟨hnone, hparent⟩), hclean⟩

/-- A report that leads elsewhere leaves an object alone. -/
theorem writeText_other {path : Path} {content : Name} {key : Key}
    (hother : leadsTo fs path ≠ some key) : (writeText fs path content).1 key = fs key := by
  cases hreport : leadsTo fs path with
  | none => rw [writeText_of_not_leadsTo hreport]
  | some report =>
      rw [(writeText_of_leadsTo hreport content).1]
      refine Store.write_other ?_ (encodeText content)
      rintro rfl
      exact hother hreport

theorem writeReport_other {path : Path} {value : Json Nat} {key : Key}
    (hother : leadsTo fs path ≠ some key) :
    (writeReport printer fs path value).1 key = fs key := by
  by_cases hdepth : value.depth ≤ printer.maxDepth
  · rw [writeReport_of_le hdepth, writeText_other hother]
  · rw [writeReport_of_lt (Nat.lt_of_not_le hdepth)]

theorem writeReports_other {response : Response} {key : Key}
    (hfirst : leadsTo fs (root ++ [generationName]) ≠ some key)
    (hsecond : leadsTo fs (root ++ [metadataName]) ≠ some key) :
    (writeReports printer fs root response).1 key = fs key := by
  have hlinks := (touches_writeReport printer fs (root ++ [generationName]) response.generated).link
  have hkept : (writeReport printer fs (root ++ [generationName]) response.generated).1 key =
      fs key := writeReport_other hfirst
  unfold writeReports
  cases hwrite : writeReport printer fs (root ++ [generationName]) response.generated with
  | mk fs₁ result =>
      rw [hwrite] at hlinks hkept
      cases result with
      | error failure => exact hkept
      | ok _ =>
          dsimp only
          refine (writeReport_other ?_).trans hkept
          rwa [leadsTo_congr hlinks]

/-- Once a suite has been materialized, the reports are written beside it without harm
exactly when they are out of its way. -/
theorem undisturbed_iff (lower : Name → Name) (printer : Printer) (disk : Disk)
    (outputDir : Path) (response : Response) (force : Bool) (fs' : FileSystem) (written : List Path)
    (hrun : materializeSuite lower disk outputDir response.generated force = (fs', .ok written)) :
    (∃ root, Undisturbed printer outputDir response fs' written root) ↔
      ReportsClear printer disk outputDir response := by
  obtain ⟨entries, fs, root, rootKey, done, h⟩ := materializeSuite_eq_ok hrun
  have hresolves : resolve fs' outputDir = some root :=
    (h.resolve_eq outputDir).trans h.prepared.resolves
  constructor
  · rintro ⟨root', hundisturbed⟩ entries' root₁ rootKey' hvalid hroot hkey
    obtain rfl := Option.some.inj (hresolves.symm.trans hundisturbed.resolves)
    obtain rfl := Except.ok.inj (h.valid.symm.trans hvalid)
    obtain rfl := Option.some.inj (h.prepared.resolves.symm.trans hroot)
    obtain rfl := Option.some.inj (h.prepared.encodes.symm.trans hkey)
    obtain ⟨hfirst, hsecond⟩ := writeReports_ok_iff.mp hundisturbed.succeeds
    exact ⟨h.reportClear_iff.mpr ⟨hundisturbed.apart _ List.mem_cons_self, hfirst⟩,
      h.reportClear_iff.mpr
        ⟨hundisturbed.apart _ (List.mem_cons_of_mem _ List.mem_cons_self), hsecond⟩⟩
  · intro hclear
    obtain ⟨hfirst, hsecond⟩ := hclear entries root rootKey h.valid h.prepared.resolves
      h.prepared.encodes
    obtain ⟨hfirstApart, hfirstWritable⟩ := h.reportClear_iff.mp hfirst
    obtain ⟨hsecondApart, hsecondWritable⟩ := h.reportClear_iff.mp hsecond
    refine ⟨root, hresolves, ?_, writeReports_ok_iff.mpr ⟨hfirstWritable, hsecondWritable⟩, ?_⟩
    · rw [reservedOutputNames, List.forall_mem_cons, List.forall_mem_singleton]
      exact ⟨hfirstApart, hsecondApart⟩
    · intro target htarget key hkey
      refine writeReports_other ?_ ?_
      · exact fun hleads => hfirstApart key hleads target htarget key hkey (List.prefix_refl _)
      · exact fun hleads => hsecondApart key hleads target htarget key hkey (List.prefix_refl _)

/-! ## Runs without `--force` -/

section WithoutForce

variable (h : Materialized lower disk outputDir generated false fs' written entries fs root rootKey
  done)

include h

theorem entryKey_iff_without_force {key : Key} :
    EntryKey disk root entries key ↔
      ∃ entry ∈ entries, encodePath (root ++ purePosixParts entry.path) = some key := by
  constructor
  · rintro ⟨entry, hentry, place, hplace, hkey⟩
    obtain rfl := Option.some.inj (hplace.symm.trans (h.placeOf_eq hentry).2)
    exact ⟨entry, hentry, hkey⟩
  · rintro ⟨entry, hentry, hkey⟩
    exact ⟨entry, hentry, _, (h.placeOf_eq hentry).2, hkey⟩

/-- The names in the way of a report are those with its name as the first component. -/
theorem reportClear_iff_without_force {name : Name} {bytes : List Char} {value : Json Nat}
    (hname : fsencode name = some bytes) (hascii : IsAscii bytes) (hdots : name ≠ dotdot) :
    ReportClear printer disk root rootKey entries (root ++ [name]) value ↔
      (∀ entry ∈ entries, (purePosixParts entry.path).head? ≠ some name) ∧
        Printable printer value := by
  have hsingle : encodePath [name] = some [bytes] := by simp [encodePath, hname]
  have hkey : encodePath (root ++ [name]) = some (rootKey ++ [bytes]) := by
    rw [encodePath_below h.prepared.encodes, hsingle, Option.map_some]
  have hleads : leadsTo disk.store (root ++ [name]) = some (rootKey ++ [bytes]) := by
    have hdots' : dotdot ∉ [name] := fun hmem => hdots (List.mem_singleton.mp hmem).symm
    have hresolve := (resolve_below_output h.prepare h.prepared rfl hdots').mpr
      ⟨Option.isSome_of_eq_some hsingle, rfl⟩
    rw [leadsTo, hresolve, Option.bind_some, hkey]
  have habove := above_of_encodePath (List.cons_ne_nil _ _) h.prepared.encodes hkey
  have hnone : disk.store (rootKey ++ [bytes]) = none :=
    nothing_below_output h.prepare h.prepared rfl habove
  have hbelow : ¬ rootKey ++ [bytes] <+: rootKey := fun hprefix =>
    habove.2 (habove.1.eq_of_length_le hprefix.length_le)
  have hapart : (∀ key, EntryKey disk root entries key → ¬ rootKey ++ [bytes] <+: key) ↔
      ∀ entry ∈ entries, (purePosixParts entry.path).head? ≠ some name := by
    simp only [entryKey_iff_without_force h, forall_exists_index, and_imp]
    constructor
    · intro hclear entry hentry hhead
      obtain ⟨rest, hparts⟩ := List.head?_eq_some_iff.mp hhead
      obtain ⟨after, hafter⟩ := Option.isSome_iff_exists.mp (h.placeOf_eq hentry).1
      have hentryKey : encodePath (root ++ purePosixParts entry.path) = some (rootKey ++ after) := by
        rw [encodePath_below h.prepared.encodes, hafter, Option.map_some]
      refine hclear _ entry hentry hentryKey (prefix_of_encodePath ?_ hkey hentryKey)
      rw [hparts]
      exact (List.prefix_append_right_inj root).mpr (List.prefix_append [name] rest)
    · intro hheads key entry hentry hentryKey hinside
      rw [encodePath_below h.prepared.encodes, Option.map_eq_some_iff] at hentryKey
      obtain ⟨after, hafter, rfl⟩ := hentryKey
      rw [List.prefix_append_right_inj] at hinside
      obtain ⟨later, rfl⟩ := hinside
      cases hparts : purePosixParts entry.path with
      | nil => exact (h.safeName hentry).parts_ne_nil hparts
      | cons first rest =>
          rw [hparts] at hafter
          have hfirst : fsencode first = some bytes := by
            cases hencode : fsencode first with
            | none => simp [encodePath, hencode] at hafter
            | some found =>
                cases hrest : rest.mapM fsencode <;> simp [encodePath, hencode, hrest] at hafter
                rw [hafter.1]
          refine hheads entry hentry ?_
          rw [hparts, List.head?_cons, ← fsencode_ascii hfirst hascii, fsencode_ascii hname hascii]
  rw [ReportClear, hleads, ← hapart]
  simp [hnone, hbelow]

end WithoutForce

/-- Without `--force` only names below that of a report are in the way of the reports. -/
theorem reportsClear_iff_without_force {response : Response}
    (hrun : materializeSuite lower disk outputDir response.generated false = (fs', .ok written)) :
    ReportsClear printer disk outputDir response ↔
      (∀ entries, validateGeneratedSuite response.generated = .ok entries →
        ∀ entry ∈ entries, ∀ name ∈ reservedOutputNames,
          (purePosixParts entry.path).head? ≠ some name) ∧
        Printable printer response.generated ∧ Printable printer response.metadata := by
  obtain ⟨entries, fs, root, rootKey, done, h⟩ := materializeSuite_eq_ok hrun
  have hgeneration : fsencode generationName = some "generation.json".toList := by decide
  have hmetadata : fsencode metadataName = some "generation_metadata.json".toList := by decide
  constructor
  · intro hclear
    obtain ⟨hfirst, hsecond⟩ := hclear entries root rootKey h.valid h.prepared.resolves
      h.prepared.encodes
    rw [reportClear_iff_without_force h hgeneration (by decide) (by decide)] at hfirst
    rw [reportClear_iff_without_force h hmetadata (by decide) (by decide)] at hsecond
    refine ⟨fun entries' hvalid entry hentry => ?_, hfirst.2, hsecond.2⟩
    obtain rfl := Except.ok.inj (h.valid.symm.trans hvalid)
    rw [reservedOutputNames, List.forall_mem_cons, List.forall_mem_singleton]
    exact ⟨hfirst.1 entry hentry, hsecond.1 entry hentry⟩
  · rintro ⟨hheads, hprintsFirst, hprintsSecond⟩ entries' root' rootKey' hvalid hroot hkey
    obtain rfl := Except.ok.inj (h.valid.symm.trans hvalid)
    obtain rfl := Option.some.inj (h.prepared.resolves.symm.trans hroot)
    obtain rfl := Option.some.inj (h.prepared.encodes.symm.trans hkey)
    rw [reportClear_iff_without_force h hgeneration (by decide) (by decide),
      reportClear_iff_without_force h hmetadata (by decide) (by decide)]
    exact ⟨⟨fun entry hentry => hheads entries h.valid entry hentry _ List.mem_cons_self, hprintsFirst⟩,
      fun entry hentry => hheads entries h.valid entry hentry _
        (List.mem_cons_of_mem _ List.mem_cons_self), hprintsSecond⟩

/-! ## A file below the name of a report -/

/-- A response without anything but its suite. -/
def plainResponse (generated : Json Nat) : Response where
  generated := generated
  source := []
  rawResponse := []
  manifest := .null

/-- A suite with the file `generation.json/a`. -/
def belowReport : Json Nat := suiteValue [] [⟨text "generation.json/a", []⟩]

/-- The file is written, and then the first report cannot be. -/
theorem not_undisturbed_belowReport :
    ∃ fs' written, materializeSuite asciiLower emptyDisk [text "out"] belowReport false =
      (fs', .ok written) ∧
        ¬ ∃ root, Undisturbed plainPrinter [text "out"] (plainResponse belowReport) fs' written
          root := by
  have hreturns : (materializeSuite asciiLower emptyDisk [text "out"] belowReport false).2 =
      .ok [[text "out", generationName, text "a"]] := by decide
  refine ⟨_, _, Prod.ext rfl hreturns, ?_⟩
  rintro ⟨root, hundisturbed⟩
  have hroot : resolve (materializeSuite asciiLower emptyDisk [text "out"] belowReport false).1
      [text "out"] = some [text "out"] := by decide
  obtain rfl := Option.some.inj (hroot.symm.trans hundisturbed.resolves)
  have hleads : leadsTo (materializeSuite asciiLower emptyDisk [text "out"] belowReport false).1
      [text "out", generationName] = some [['o', 'u', 't'], "generation.json".toList] := by decide
  have hkey : encodePath [text "out", generationName, text "a"] =
      some [['o', 'u', 't'], "generation.json".toList, ['a']] := by decide
  exact hundisturbed.apart generationName List.mem_cons_self _ hleads _ List.mem_cons_self _ hkey
    (by decide)

/-- Three files and the reports go into a directory that is in use. -/
theorem undisturbed_iff_threeFiles :
    (∃ root, Undisturbed plainPrinter [text "out"] (plainResponse threeFiles)
        (materializeSuite asciiLower usedDisk [text "out"] threeFiles true).1
        [[text "out", text "t", text "a.c"], [text "out", text "t", text "b.c"],
          [text "out", text "doc", text "plan"]] root) ↔
      ReportsClear plainPrinter usedDisk [text "out"] (plainResponse threeFiles) :=
  undisturbed_iff asciiLower plainPrinter usedDisk [text "out"] (plainResponse threeFiles) true _ _
    (Prod.ext rfl materializeSuite_threeFiles)

end Icflow.Generate
