import Icflow.Generate.Materialized
import Icflow.Generate.Reports

set_option autoImplicit false

/-!
# Whether the input project is modified

The output directory is only compared with the project root.  A run that has some eligible
file leaves the files of the project alone exactly when none of them can be reached from the
output directory: by the path of a generated file, or by one of the two reports
(`untouched_iff`).
-/

namespace Icflow.Generate

open Icflow.Foundation

variable (lower : Name → Name) (printer : Printer) (disk : Disk) (project : Project)
  (limits : Limits) (outputDir : Path) (force : Bool)

/-- A file that is below the project root before the run. -/
def ProjectFile (projectRoot : Path) (key : Key) : Prop :=
  (∃ rootKey, encodePath projectRoot = some rootKey ∧ rootKey <+: key) ∧
    ∃ bytes, disk.store key = some (.file bytes)

/-- Whatever is generated, no file of the project is changed. -/
def Untouched : Prop :=
  ∀ response key, ProjectFile disk project.root key →
    (writeResults lower printer disk project limits outputDir response force).1 key =
      disk.store key

/-- A run gets to its suite: the output directory is not the root of the project, some file
is eligible beside it, and the directory is there. -/
structure Begins (fs : FileSystem) (root : Path) : Prop where
  apart : root ≠ project.root
  eligible : selectProjectFiles lower project (some root) limits ≠ []
  prepare : prepareOutputDirectory disk outputDir force = .ok (fs, root)

/-- A name that a generated file may have, and the key it is written to. -/
structure OutputName (fs : FileSystem) (root : Path) (name : Name) (key : Key) : Prop where
  short : name.length ≤ 240
  safe : ∃ target, safeGeneratedPath lower fs root name = .ok target ∧ encodePath target = some key

/-- After some suite the first report can be opened at `report`: it could be before, or a
generated file brings the directory it goes to. -/
def OpensAfter (fs : FileSystem) (root : Path) (report : Key) : Prop :=
  (∃ bytes, fs report = some (.file bytes)) ∨ fs report = some .special ∨
    fs report = none ∧
      (fs report.dropLast = some .directory ∨
        ∃ name key, OutputName lower fs root name key ∧ Clean name ∧
          ¬ Store.Obstructed fs [] key ∧ Store.Above report.dropLast key ∧
          ¬ Store.Above report key)

/-- No file of the project can be reached from the output directory. -/
structure Separate : Prop where
  target : ∀ fs root, Begins lower disk project limits outputDir force fs root →
    ∀ name key, OutputName lower fs root name key → ¬ ProjectFile disk project.root key
  generation : ∀ fs root, Begins lower disk project limits outputDir force fs root →
    ∀ key, leadsTo fs (root ++ [generationName]) = some key → ¬ ProjectFile disk project.root key
  /-- the second report is only written after the first -/
  metadata : ∀ fs root, Begins lower disk project limits outputDir force fs root →
    ∀ report key, leadsTo fs (root ++ [generationName]) = some report →
      OpensAfter lower fs root report → leadsTo fs (root ++ [metadataName]) = some key →
      ¬ ProjectFile disk project.root key

variable {lower printer disk project limits outputDir force}
  {fs fs' : FileSystem} {root : Path} {rootKey : Key} {generated : Json Nat}

/-! ## Runs that leave the project alone -/

/-- What is saved for an accepted suite has a name that it may have. -/
theorem Accepted.names {saves : List (Key × Option (List Char))}
    (h : Accepted lower disk outputDir generated force fs saves) :
    ∃ root rootKey, prepareOutputDirectory disk outputDir force = .ok (fs, root) ∧
      Prepared disk outputDir fs root rootKey ∧
      ∀ save ∈ saves, ∃ name, OutputName lower fs root name save.1 ∧
        ∀ printer : Printer, Printable printer generated → Clean name := by
  obtain ⟨entries, root, targets, hvalid, hprepare, hcheck, rfl⟩ := h
  obtain ⟨rootKey, hprepared, _⟩ := prepareOutputDirectory_eq_ok hprepare
  refine ⟨root, rootKey, hprepare, hprepared, ?_⟩
  rw [List.forall_mem_map]
  intro pair hpair
  obtain ⟨key, hkey, _⟩ := target_of_mem_zip hprepared hcheck hpair
  have hentry := (List.of_mem_zip (a := pair.1) (b := pair.2) hpair).1
  obtain ⟨members, files, rfl, _, hentries⟩ := validateGeneratedSuite_eq_ok hvalid
  obtain ⟨item, _, hvalidated⟩ := exists_left_of_forall₂ hentries hentry
  obtain ⟨_, _, _, hshort⟩ := validateEntry_eq_ok hvalidated
  refine ⟨pair.1.path, ⟨hshort, pair.2, ?_, ?_⟩, fun _ hprints =>
    clean_path_of_clean_dumps hvalid hprints.2 hentry⟩
  · exact List.forall₂_zip (checkTargets_eq_ok hcheck) hpair
  · rw [toSave, hkey, Option.getD_some]

theorem Materialized.accepted {entries : List FileEntry} {written : List Path}
    {done : List (Key × List Char)}
    (h : Materialized lower disk outputDir generated force fs' written entries fs root rootKey done) :
    Accepted lower disk outputDir generated force fs (Store.encoded done) :=
  ⟨entries, root, written, h.valid, h.prepare, h.check, h.saves.symm⟩

/-- A first report that is written could be opened after some suite. -/
theorem opensAfter_of_openable {done : List (Key × List Char)} {report : Key}
    (hdone : Store.Saved fs done)
    (hnames : ∀ entry ∈ done, ∃ name, OutputName lower fs root name entry.1 ∧ Clean name)
    (hroot : Store.WellFormed fs) (hopen : Store.Openable (Store.outcome fs done) report) :
    OpensAfter lower fs root report := by
  have hreport : report ≠ [] := by
    rintro rfl
    simp [Store.Openable, Store.outcome_of_directory hroot.root] at hopen
  rcases (hdone.openable_outcome_iff hreport).mp hopen with hfile | hspecial |
    ⟨hnone, hbelow, hdirectory | ⟨entry, hentry, habove⟩⟩
  · exact Or.inl hfile
  · exact Or.inr (Or.inl hspecial)
  · exact Or.inr (Or.inr ⟨hnone, Or.inl hdirectory⟩)
  · obtain ⟨name, hname, hclean⟩ := hnames entry hentry
    exact Or.inr (Or.inr ⟨hnone, Or.inr ⟨name, entry.1, hname, hclean,
      hdone.free (List.mem_map_of_mem hentry), habove, hbelow entry hentry⟩⟩)

/-- The reports leave a file alone that they do not lead to. -/
theorem writeReports_keeps {response : Response} {key : Key} {bytes : List Char}
    (hkey : fs' key = some (.file bytes))
    (hfirst : leadsTo fs' (root ++ [generationName]) ≠ some key)
    (hsecond : (∃ report, leadsTo fs' (root ++ [generationName]) = some report ∧
        Store.Openable fs' report ∧ Printable printer response.generated) →
      leadsTo fs' (root ++ [metadataName]) ≠ some key) :
    (writeReports printer fs' root response).1 key = some (.file bytes) := by
  have hok : (writeReport printer fs' (root ++ [generationName]) response.generated).2 = .ok () ↔
      _ := writeReport_ok_iff
  have htouches := touches_writeReport printer fs' (root ++ [generationName]) response.generated
  have hkept := (htouches.file key hfirst bytes).mpr hkey
  unfold writeReports
  cases hwrite : writeReport printer fs' (root ++ [generationName]) response.generated with
  | mk fs'' result =>
      rw [hwrite] at hok htouches hkept
      cases result with
      | error failure => exact hkept
      | ok _ =>
          have hother := hsecond (hok.mp rfl)
          refine ((touches_writeReport printer fs'' (root ++ [metadataName])
            response.metadata).file key ?_ bytes).mpr hkept
          rw [Set.mem_ofPred_eq, leadsTo_congr htouches.link]
          exact hother

/-- A file that no name and no report leads to. -/
structure OutOfReach (lower : Name → Name) (disk : Disk) (project : Project) (limits : Limits)
    (outputDir : Path) (force : Bool) (key : Key) : Prop where
  target : ∀ fs root, Begins lower disk project limits outputDir force fs root →
    ∀ name, ¬ OutputName lower fs root name key
  generation : ∀ fs root, Begins lower disk project limits outputDir force fs root →
    leadsTo fs (root ++ [generationName]) ≠ some key
  metadata : ∀ fs root, Begins lower disk project limits outputDir force fs root →
    ∀ report, leadsTo fs (root ++ [generationName]) = some report →
      OpensAfter lower fs root report → leadsTo fs (root ++ [metadataName]) ≠ some key

/-- `materialize_suite` leaves a file alone that no name leads to, however it ends. -/
theorem materializeSuite_keeps {key : Key} {bytes : List Char}
    (htarget : ∀ fs root, prepareOutputDirectory disk outputDir force = .ok (fs, root) →
      ∀ name, ¬ OutputName lower fs root name key)
    (hbytes : disk.store key = some (.file bytes)) :
    (materializeSuite lower disk outputDir generated force).1 key = some (.file bytes) := by
  by_cases hrefused : ∀ fs saves, ¬ Accepted lower disk outputDir generated force fs saves
  · exact ((materializeSuite_of_refused hrefused).2 [] key List.nil_prefix bytes).mpr hbytes
  · obtain ⟨fs, hfs⟩ := not_forall.mp hrefused
    obtain ⟨saves, hsaves⟩ := not_forall.mp hfs
    have haccepted := not_not.mp hsaves
    obtain ⟨root, rootKey, hprepare, hprepared, hnames⟩ := haccepted.names
    obtain ⟨_, _, _, _, hstore, _⟩ := materializeSuite_of_accepted haccepted
    have hothers : ∀ save ∈ saves, save.1 ∈ {other | other ≠ key} := by
      intro save hsave hsame
      obtain ⟨name, hname, _⟩ := hnames save hsave
      rw [hsame] at hname
      exact htarget fs root hprepare name hname
    have htouches := (hprepared.touches _).trans
      (Store.saveAll_frame hprepared.wellFormed hothers).2
    rw [hstore]
    exact (htouches.file key (fun hne => hne rfl) bytes).mpr hbytes

/-- After a suite has been materialized, the reports leave a file alone that is out of reach. -/
theorem Materialized.writeReports_keeps {response : Response} {entries : List FileEntry}
    {written : List Path} {done : List (Key × List Char)} {key : Key} {bytes : List Char}
    (h : Materialized lower disk outputDir response.generated force fs' written entries fs root
      rootKey done)
    (hout : OutOfReach lower disk project limits outputDir force key)
    (hbegins : Begins lower disk project limits outputDir force fs root)
    (hkey : fs' key = some (.file bytes)) :
    (writeReports printer fs' root response).1 key = some (.file bytes) := by
  have hlinks := (h.saved.touches h.prepared.wellFormed).link
  rw [← h.after] at hlinks
  refine Generate.writeReports_keeps hkey ?_ ?_
  · rw [leadsTo_congr hlinks]
    exact hout.generation fs root hbegins
  · rintro ⟨report, hreport, hopen, hprints⟩
    rw [leadsTo_congr hlinks] at hreport ⊢
    rw [h.after] at hopen
    obtain ⟨_, _, hprepare, _, hnames⟩ := h.accepted.names
    obtain ⟨_, rfl⟩ := Prod.mk.inj (Except.ok.inj (h.prepare.symm.trans hprepare))
    have hentries : ∀ entry ∈ done, ∃ name, OutputName lower fs root name entry.1 ∧ Clean name := by
      intro entry hentry
      obtain ⟨name, hname, hcleans⟩ := hnames _ (List.mem_map_of_mem hentry)
      exact ⟨name, hname, hcleans printer hprints⟩
    exact hout.metadata fs root hbegins report hreport
      (opensAfter_of_openable h.saved hentries h.prepared.wellFormed hopen)

/-- A run leaves a file that is out of its reach alone. -/
theorem writeResults_keeps {key : Key} {bytes : List Char}
    (h : OutOfReach lower disk project limits outputDir force key)
    (hbytes : disk.store key = some (.file bytes)) (response : Response) :
    (writeResults lower printer disk project limits outputDir response force).1 key =
      some (.file bytes) := by
  cases hresolve : resolve disk.store outputDir with
  | none => simpa [writeResults, hresolve] using hbytes
  | some resolved =>
      by_cases hsame : resolved = project.root
      · simpa [writeResults, hresolve, hsame] using hbytes
      by_cases hnone : selectProjectFiles lower project (some resolved) limits = []
      · simpa [writeResults, hresolve, hsame, hnone] using hbytes
      rw [writeResults_of_eligible hresolve hsame hnone, writeSuite]
      -- what is prepared is the directory that has been compared
      have hbegins : ∀ fs root, prepareOutputDirectory disk outputDir force = .ok (fs, root) →
          Begins lower disk project limits outputDir force fs root := by
        intro fs root hprepare
        obtain ⟨_, hprepared, _⟩ := prepareOutputDirectory_eq_ok hprepare
        obtain rfl := Option.some.inj (hresolve.symm.trans hprepared.resolves)
        exact ⟨hsame, hnone, hprepare⟩
      have hkept : (materializeSuite lower disk outputDir response.generated force).1 key =
          some (.file bytes) :=
        materializeSuite_keeps (fun fs root hprepare => h.target fs root (hbegins fs root hprepare))
          hbytes
      cases hrun : materializeSuite lower disk outputDir response.generated force with
      | mk fs' result =>
          rw [hrun] at hkept
          cases result with
          | error failure => exact hkept
          | ok written =>
              obtain ⟨entries, fs, root, rootKey, done, hdone⟩ := materializeSuite_eq_ok hrun
              obtain rfl := Option.some.inj (hresolve.symm.trans hdone.prepared.resolves)
              simp only [(hdone.resolve_eq outputDir).trans hresolve]
              exact hdone.writeReports_keeps h (hbegins fs resolved hdone.prepare) hkept

/-- A run with nothing of the project in reach leaves the project alone. -/
theorem untouched_of_separate (h : Separate lower disk project limits outputDir force) :
    Untouched lower printer disk project limits outputDir force := by
  intro response key hproject
  obtain ⟨bytes, hbytes⟩ := hproject.2
  rw [hbytes]
  refine writeResults_keeps ⟨?_, ?_, ?_⟩ hbytes response
  · exact fun fs root hbegins name hname => h.target fs root hbegins name key hname hproject
  · exact fun fs root hbegins hleads => h.generation fs root hbegins key hleads hproject
  · exact fun fs root hbegins report hreport hopens hleads =>
      h.metadata fs root hbegins report key hreport hopens hleads hproject

/-! ## Suites of at most one file -/

theorem materializeSuite_nil (hprepare : prepareOutputDirectory disk outputDir force = .ok (fs, root))
    (summary : Name) :
    materializeSuite lower disk outputDir (suiteValue summary []) force = (fs, .ok []) := by
  have hvalid : validateGeneratedSuite (suiteValue summary []) = .ok [] :=
    validateGeneratedSuite_suiteValue summary (Nat.zero_le 1) (List.forall_mem_nil _)
  rw [materializeSuite, hvalid]
  simp only [hprepare]
  rfl

/-- A suite of one file that is not obstructed is written. -/
theorem materializeSuite_single
    (hprepare : prepareOutputDirectory disk outputDir force = .ok (fs, root)) (summary : Name)
    {name content : Name} {key : Key} {bytes : List Char}
    (hname : OutputName lower fs root name key) (hcontent : content.length ≤ 200000)
    (hbytes : encodeText content = some bytes) (hfree : ¬ Store.Obstructed fs [] key) :
    ∃ written, materializeSuite lower disk outputDir (suiteValue summary [⟨name, content⟩]) force =
      (Store.outcome fs [(key, bytes)], .ok written) := by
  obtain ⟨rootKey, hprepared, _⟩ := prepareOutputDirectory_eq_ok hprepare
  obtain ⟨target, hsafe, hkey⟩ := hname.safe
  have hvalid : validateGeneratedSuite (suiteValue summary [⟨name, content⟩]) =
      .ok [⟨name, content⟩] :=
    validateGeneratedSuite_suiteValue summary (le_refl 1)
      (List.forall_mem_singleton.mpr ⟨hname.short, hcontent⟩)
  have hallowed : (pathExists fs target && !force) = false := by
    cases hforce : force with
    | true => simp
    | false =>
        have hinside : rootKey <+: key := by
          obtain ⟨key', hkey', hinside⟩ := safeGeneratedPath_eq_ok hprepared hsafe
          rwa [Option.some.inj (hkey.symm.trans hkey')]
        have habove : Store.Above rootKey key := by
          refine ⟨hinside, ?_⟩
          rintro rfl
          exact hfree (Or.inr (Or.inl (hprepared.directory (List.prefix_refl _))))
        have hnone : fs key = none :=
          (hprepared.none_iff key).mpr ⟨nothing_below_output hprepare hprepared hforce habove,
            fun hprefix => habove.2 (habove.1.eq_of_length_le hprefix.length_le)⟩
        simp [pathExists, hkey, hnone]
  have hcheck : checkTargets lower fs root [⟨name, content⟩] force = .ok [target] := by
    simp [checkTargets, safeTargets, hsafe, hallowed]
  have hsave := Store.save_of_free hprepared.wellFormed .nil hfree (some bytes)
  rw [Store.outcome_nil] at hsave
  refine ⟨[target], ?_⟩
  rw [materializeSuite, hvalid]
  simp only [hprepare, hcheck, List.zip_cons_cons, List.zip_nil_right, writeTargets, hkey, hbytes,
    hsave, Store.saveResult, List.nil_append, Option.getD_some]

theorem saved_singleton {key : Key} (hfree : ¬ Store.Obstructed fs [] key) (bytes : List Char) :
    Store.Saved fs [(key, bytes)] := .snoc bytes .nil hfree

/-- A suite is an object with an array of objects in it. -/
theorem depth_suiteValue (summary : Name) (entries : List FileEntry) :
    (suiteValue summary entries).depth ≤ 3 := by
  have hfiles : Json.depthElements (entries.map entryValue) ≤ 1 := by
    induction entries with
    | nil => exact Nat.zero_le 1
    | cons entry rest ih =>
        rw [List.map_cons, Json.depthElements]
        exact Nat.max_le.mpr ⟨le_refl 1, ih⟩
  simp only [suiteValue, Json.depth, Json.depthMembers, Json.depthElements]
  omega

theorem printable_suiteValue {printer : Printer} {summary : Name} {entries : List FileEntry}
    (hclean : Clean (dumps printer.number 0 (suiteValue summary entries))) :
    Printable printer (suiteValue summary entries) :=
  ⟨(depth_suiteValue summary entries).trans (Nat.le_of_succ_le printer.four_le_maxDepth), hclean⟩

theorem clean_dumps_single (number : List Char → Name) {name : Name} (hname : Clean name) :
    Clean (dumps number 0 (suiteValue [] [⟨name, []⟩])) := by
  have hstring := clean_dumpsString hname
  simp only [suiteValue, entryValue, List.map_cons, List.map_nil, dumps, dumpsMembers,
    dumpsElements, clean_append]
  and_intros <;> first
    | exact hstring
    | exact clean_of_small rfl

/-- Some suite lets the first report be opened. -/
theorem exists_opener (hprepare : prepareOutputDirectory disk outputDir force = .ok (fs, root))
    {report : Key} (hopens : OpensAfter lower fs root report) :
    ∃ entries done written, Store.Saved fs done ∧ Store.Openable (Store.outcome fs done) report ∧
      materializeSuite lower disk outputDir (suiteValue [] entries) force =
        (Store.outcome fs done, .ok written) ∧
      ∀ printer : Printer, Printable printer (suiteValue [] entries) := by
  obtain ⟨rootKey, hprepared, _⟩ := prepareOutputDirectory_eq_ok hprepare
  have hempty : Store.Openable fs report →
      ∃ entries done written, Store.Saved fs done ∧
        Store.Openable (Store.outcome fs done) report ∧
        materializeSuite lower disk outputDir (suiteValue [] entries) force =
          (Store.outcome fs done, .ok written) ∧
        ∀ printer : Printer, Printable printer (suiteValue [] entries) := by
    intro hopen
    refine ⟨[], [], [], .nil, ?_, ?_, ?_⟩
    · rwa [Store.outcome_nil]
    · rw [Store.outcome_nil]
      exact materializeSuite_nil hprepare []
    · intro printer
      have hprinted : dumps printer.number 0 (suiteValue [] []) =
          dumps (fun _ => []) 0 (suiteValue [] []) := rfl
      refine printable_suiteValue ?_
      rw [hprinted]
      exact clean_of_small rfl
  rcases hopens with hfile | hspecial | ⟨hnone, hdirectory | ⟨name, key, hname, hclean, hfree,
    habove, hbelow⟩⟩
  · exact hempty (Or.inl hfile)
  · exact hempty (Or.inr (Or.inl hspecial))
  · exact hempty (Or.inr (Or.inr ⟨hnone, hdirectory⟩))
  · have hsaved := saved_singleton hfree []
    have hreport : report ≠ [] := by
      rintro rfl
      rw [hprepared.wellFormed.root] at hnone
      cases hnone
    have hbytes : encodeText [] = some [] := rfl
    obtain ⟨written, hrun⟩ :=
      materializeSuite_single hprepare [] hname (Nat.zero_le _) hbytes hfree
    refine ⟨[⟨name, []⟩], [(key, [])], written, hsaved, ?_, hrun,
      fun printer => printable_suiteValue (clean_dumps_single printer.number hclean)⟩
    refine (hsaved.openable_outcome_iff hreport).mpr (Or.inr (Or.inr ⟨hnone, ?_, Or.inr ?_⟩))
    · exact List.forall_mem_singleton.mpr hbelow
    · exact ⟨(key, []), List.mem_singleton_self _, habove⟩

/-! ## Reports of any text -/

/-- A response of which only the suite and the id are of interest. -/
def responseOf (generated : Json Nat) (id : Name) : Response where
  generated := generated
  source := []
  rawResponse := [(text "id", .str id)]
  manifest := .null

/-- Of two texts one is not what a file holds. -/
theorem exists_bytes_ne (encode : Name → Option (List Char)) (hfirst : (encode []).isSome = true)
    (hsecond : (encode (text "x")).isSome = true) (hdiffer : encode [] ≠ encode (text "x"))
    (old : List Char) :
    ∃ value bytes, value.length ≤ 1 ∧ encode value = some bytes ∧ bytes ≠ old := by
  obtain ⟨first, hfirst⟩ := Option.isSome_iff_exists.mp hfirst
  obtain ⟨second, hsecond⟩ := Option.isSome_iff_exists.mp hsecond
  by_cases hold : first = old
  · refine ⟨text "x", second, le_refl 1, hsecond, ?_⟩
    rintro rfl
    exact hdiffer (by rw [hfirst, hsecond, hold])
  · exact ⟨[], first, Nat.zero_le 1, hfirst, hold⟩

theorem exists_summary (number : List Char → Name) (old : List Char) :
    ∃ summary bytes, encodeText (dumps number 0 (suiteValue summary []) ++ text "\n") = some bytes ∧
      bytes ≠ old := by
  -- no number is printed
  have hprinted : ∀ summary, dumps number 0 (suiteValue summary []) =
      dumps (fun _ => []) 0 (suiteValue summary []) := fun _ => rfl
  simp only [hprinted]
  obtain ⟨summary, bytes, _, hbytes, hne⟩ := exists_bytes_ne
    (fun summary => encodeText (dumps (fun _ => []) 0 (suiteValue summary []) ++ text "\n"))
    (by decide) (by decide) (by decide) old
  exact ⟨summary, bytes, hbytes, hne⟩

theorem exists_id (number : List Char → Name) (generated : Json Nat) (old : List Char) :
    ∃ id bytes,
      encodeText (dumps number 0 (responseOf generated id).metadata ++ text "\n") = some bytes ∧
        bytes ≠ old := by
  have hprinted : ∀ id, dumps number 0 (responseOf generated id).metadata =
      dumps (fun _ => []) 0 (responseOf .null id).metadata := fun _ => rfl
  simp only [hprinted]
  obtain ⟨id, bytes, _, hbytes, hne⟩ := exists_bytes_ne
    (fun id => encodeText (dumps (fun _ => []) 0 (responseOf .null id).metadata ++ text "\n"))
    (by decide) (by decide) (by decide) old
  exact ⟨id, bytes, hbytes, hne⟩

section Reports

variable (response : Response) {report key : Key} {old bytes : List Char}

/-- The first report, when it can be written. -/
theorem writeReports_of_openable (hreport : leadsTo fs (root ++ [generationName]) = some report)
    (hopen : Store.Openable fs report) (hdepth : response.generated.depth ≤ printer.maxDepth)
    (hbytes : encodeText (dumps printer.number 0 response.generated ++ text "\n") = some bytes) :
    (writeReports printer fs root response).1 =
      (writeReport printer (Store.write fs report (some bytes)).1 (root ++ [metadataName])
        response.metadata).1 := by
  have hprints : Printable printer response.generated :=
    ⟨hdepth, clean_line.mp (encodeText_isSome_iff.mp (Option.isSome_of_eq_some hbytes))⟩
  have hafter := writeReport_store hreport hdepth
  rw [hbytes] at hafter
  have hwritten := (writeReport_of_leadsTo hreport response.generated).mpr ⟨hopen, hprints⟩
  unfold writeReports
  cases hwrite : writeReport printer fs (root ++ [generationName]) response.generated with
  | mk fs'' result =>
      rw [hwrite] at hafter hwritten
      obtain rfl : result = .ok () := hwritten
      rw [← hafter]

/-- A file the first report leads to is overwritten. -/
theorem writeReports_generation (hreport : leadsTo fs (root ++ [generationName]) = some key)
    (hold : fs key = some (.file old)) (hdepth : response.generated.depth ≤ printer.maxDepth)
    (hbytes : encodeText (dumps printer.number 0 response.generated ++ text "\n") = some bytes)
    (hother : leadsTo fs (root ++ [metadataName]) ≠ some key) :
    (writeReports printer fs root response).1 key = some (.file bytes) := by
  rw [writeReports_of_openable response hreport (Or.inl ⟨old, hold⟩) hdepth hbytes]
  have hlinks := (Store.touches_write (Set.mem_singleton key) fs (some bytes)).link
  refine ((touches_writeReport printer _ (root ++ [metadataName])
    response.metadata).file key ?_ bytes).mpr (Store.write_file_self hold bytes)
  rw [Set.mem_ofPred_eq, leadsTo_congr hlinks]
  exact hother

/-- A file the second report leads to is overwritten once the first has been written. -/
theorem writeReports_metadata (hreport : leadsTo fs (root ++ [generationName]) = some report)
    (hopen : Store.Openable fs report) (hprints : Printable printer response.generated)
    (hkey : leadsTo fs (root ++ [metadataName]) = some key) (hold : fs key = some (.file old))
    (hdepth : response.metadata.depth ≤ printer.maxDepth)
    (hbytes : encodeText (dumps printer.number 0 response.metadata ++ text "\n") = some bytes) :
    (writeReports printer fs root response).1 key = some (.file bytes) := by
  obtain ⟨first, hfirst⟩ := Option.isSome_iff_exists.mp
    (encodeText_isSome_iff.mpr (clean_line.mpr hprints.2))
  rw [writeReports_of_openable response hreport hopen hprints.1 hfirst]
  have hlinks := (Store.touches_write (Set.mem_singleton report) fs (some first)).link
  rw [← leadsTo_congr hlinks] at hkey
  rw [writeReport_store hkey hdepth, hbytes]
  obtain ⟨now, hnow⟩ := Store.write_keeps_file hold report (some first)
  exact Store.write_file_self hnow bytes

end Reports

/-! ## Runs that reach the project -/

/-- A run whose suite is written completely. -/
theorem writeResults_of_ok (hbegins : Begins lower disk project limits outputDir force fs root)
    (response : Response) {done : List (Key × List Char)} {written : List Path}
    (hdone : Store.Saved fs done)
    (hrun : materializeSuite lower disk outputDir response.generated force =
      (Store.outcome fs done, .ok written)) :
    writeResults lower printer disk project limits outputDir response force =
      writeReports printer (Store.outcome fs done) root response := by
  obtain ⟨rootKey, hprepared, _⟩ := prepareOutputDirectory_eq_ok hbegins.prepare
  have htouches := (hprepared.touches _).trans (hdone.touches hprepared.wellFormed)
  have hroot : resolve (Store.outcome fs done) outputDir = some root := by
    rw [resolve, resolveFrom_congr htouches.link]
    exact hprepared.resolves
  rw [writeResults_of_eligible hprepared.resolves hbegins.apart hbegins.eligible, writeSuite]
  simp only [hrun, hroot]

section Reaching

variable (h : Untouched lower printer disk project limits outputDir force)
  (hbegins : Begins lower disk project limits outputDir force fs root)

include h hbegins

/-- The second report is not led to a file of the project. -/
theorem metadata_of_untouched {report key : Key}
    (hreport : leadsTo fs (root ++ [generationName]) = some report)
    (hopens : OpensAfter lower fs root report)
    (hkey : leadsTo fs (root ++ [metadataName]) = some key) :
    ¬ ProjectFile disk project.root key := by
  intro hproject
  obtain ⟨old, hold⟩ := hproject.2
  obtain ⟨rootKey, hprepared, _⟩ := prepareOutputDirectory_eq_ok hbegins.prepare
  obtain ⟨entries, done, written, hdone, hopen, hrun, hprints⟩ :=
    exists_opener hbegins.prepare hopens
  have htouches := hdone.touches hprepared.wellFormed
  have hbefore := ((hprepared.touches ∅).file key (Set.notMem_empty key) old).mpr hold
  have hafter : Store.outcome fs done key = _ := Store.outcome_of_file hbefore
  obtain ⟨id, bytes, hbytes, hne⟩ := exists_id printer.number (suiteValue [] entries) old
  have hkept := h (responseOf (suiteValue [] entries) id) key hproject
  rw [writeResults_of_ok hbegins (responseOf (suiteValue [] entries) id) hdone hrun] at hkept
  rw [← leadsTo_congr htouches.link] at hreport hkey
  rw [writeReports_metadata (responseOf (suiteValue [] entries) id) hreport hopen (hprints printer)
    hkey hafter (Nat.le_of_succ_le (Nat.le_of_succ_le (Nat.le_of_succ_le printer.four_le_maxDepth)))
    hbytes, hold] at hkept
  exact hne (Node.file.inj (Option.some.inj hkept))

/-- The first report is not led to a file of the project. -/
theorem generation_of_untouched {key : Key}
    (hkey : leadsTo fs (root ++ [generationName]) = some key) :
    ¬ ProjectFile disk project.root key := by
  intro hproject
  obtain ⟨old, hold⟩ := hproject.2
  obtain ⟨rootKey, hprepared, _⟩ := prepareOutputDirectory_eq_ok hbegins.prepare
  have hbefore := ((hprepared.touches ∅).file key (Set.notMem_empty key) old).mpr hold
  have hother : leadsTo fs (root ++ [metadataName]) ≠ some key := fun hleads =>
    metadata_of_untouched h hbegins hkey (Or.inl ⟨old, hbefore⟩) hleads hproject
  obtain ⟨summary, bytes, hbytes, hne⟩ := exists_summary printer.number old
  have hdepth : (responseOf (suiteValue summary []) []).generated.depth ≤ printer.maxDepth :=
    (depth_suiteValue summary []).trans (Nat.le_of_succ_le printer.four_le_maxDepth)
  have hrun : materializeSuite lower disk outputDir (suiteValue summary []) force =
      (Store.outcome fs [], .ok []) := by
    rw [Store.outcome_nil]
    exact materializeSuite_nil hbegins.prepare summary
  have hkept := h (responseOf (suiteValue summary []) []) key hproject
  rw [writeResults_of_ok hbegins (responseOf (suiteValue summary []) []) .nil hrun,
    Store.outcome_nil, writeReports_generation (responseOf (suiteValue summary []) []) hkey hbefore
      hdepth hbytes hother, hold] at hkept
  exact hne (Node.file.inj (Option.some.inj hkept))

/-- No generated file is led to a file of the project. -/
theorem target_of_untouched {name : Name} {key : Key} (hname : OutputName lower fs root name key) :
    ¬ ProjectFile disk project.root key := by
  intro hproject
  obtain ⟨old, hold⟩ := hproject.2
  obtain ⟨rootKey, hprepared, _⟩ := prepareOutputDirectory_eq_ok hbegins.prepare
  have hbefore := ((hprepared.touches ∅).file key (Set.notMem_empty key) old).mpr hold
  have hfree := Store.free_of_file hprepared.wellFormed hbefore
  obtain ⟨content, bytes, hlength, hbytes, hne⟩ :=
    exists_bytes_ne encodeText (by decide) (by decide) (by decide) old
  have hdone := saved_singleton hfree bytes
  obtain ⟨written, hrun⟩ := materializeSuite_single hbegins.prepare [] hname
    (hlength.trans (by decide)) hbytes hfree
  have htouches := hdone.touches hprepared.wellFormed
  have hafter : Store.outcome fs [(key, bytes)] key = some (.file bytes) := by
    have hlast : Store.lastWrite [(key, bytes)] key = some bytes :=
      (Store.lastWrite_concat [] key key bytes).trans (if_pos rfl)
    rw [Store.outcome_of_file hbefore, hlast, Option.getD_some]
  have hkept := h (responseOf (suiteValue [] [⟨name, content⟩]) []) key hproject
  rw [writeResults_of_ok hbegins (responseOf (suiteValue [] [⟨name, content⟩]) []) hdone hrun,
    writeReports_keeps hafter, hold] at hkept
  · exact hne (Node.file.inj (Option.some.inj hkept))
  · rw [leadsTo_congr htouches.link]
    exact fun hleads => generation_of_untouched h hbegins hleads hproject
  · rintro ⟨report, hreport, hopen, hprints⟩
    rw [leadsTo_congr htouches.link] at hreport ⊢
    have hvalid : validateGeneratedSuite (suiteValue [] [⟨name, content⟩]) =
        .ok [⟨name, content⟩] :=
      validateGeneratedSuite_suiteValue [] (le_refl 1)
        (List.forall_mem_singleton.mpr ⟨hname.short, hlength.trans (by decide)⟩)
    have hentries : ∀ entry ∈ [(key, bytes)], ∃ name,
        OutputName lower fs root name entry.1 ∧ Clean name :=
      List.forall_mem_singleton.mpr ⟨name, hname,
        clean_path_of_clean_dumps hvalid hprints.2 (List.mem_singleton_self _)⟩
    have hopens := opensAfter_of_openable hdone hentries hprepared.wellFormed hopen
    exact fun hleads => metadata_of_untouched h hbegins hreport hopens hleads hproject

end Reaching

/-- The files of the project are safe from every response exactly when none is in reach of
the output directory. -/
theorem untouched_iff (lower : Name → Name) (printer : Printer) (disk : Disk)
    (project : Project) (limits : Limits) (outputDir : Path) (force : Bool) :
    Untouched lower printer disk project limits outputDir force ↔
      Separate lower disk project limits outputDir force := by
  constructor
  · intro h
    exact ⟨fun fs root hbegins name key hname => target_of_untouched h hbegins hname,
      fun fs root hbegins key hkey => generation_of_untouched h hbegins hkey,
      fun fs root hbegins report key hreport hopens hkey =>
        metadata_of_untouched h hbegins hreport hopens hkey⟩
  · exact untouched_of_separate

/-! ## An output directory in the project -/

/-- A project `p` with the files `p/b.c` and `p/src/a.c`, on disk. -/
def smallDisk : Disk where
  objects := [([['p']], .directory), ([['p'], ['b', '.', 'c']], .file ['y']),
    ([['p'], ['s', 'r', 'c']], .directory),
    ([['p'], ['s', 'r', 'c'], ['a', '.', 'c']], .file ['s'])]
  inDirectory := by decide
  linksPlain := by simp

/-- The directory `src` of that project. -/
def smallSources : Tree := .directory [(text "a.c", .file ['s'] true)]

/-- The project, as the walk lists it. -/
def smallProject : Project where
  root := [text "p"]
  entries := [(text "b.c", .file ['y'] true), (text "src", smallSources)]
  wellFormed := by
    refine ⟨⟨?_, ?_, ?_, ?_⟩, ?_, trivial, ⟨?_, ?_, ?_, ?_⟩, ?_,
      ⟨⟨?_, ?_, ?_, ?_⟩, ?_, trivial, trivial⟩, trivial⟩ <;> decide

/-- Some file of the project is selected, `b.c` for one, wherever the tests go. -/
theorem selectProjectFiles_smallProject (output : Path) :
    selectProjectFiles asciiLower smallProject (some output) Limits.default ≠ [] := by
  intro hnone
  have hlisted : (⟨[text "b.c"], .file ['y'] true⟩ : Candidate) ∈
      iterCandidatePaths asciiLower smallProject (some output) := by
    rw [iterCandidatePaths, Walk.candidates]
    refine List.mem_append_left _ (Walk.mem_fileCandidates.mpr ⟨text "b.c", ?_, rfl, ?_, rfl⟩)
    · exact List.mem_cons_self
    · have hopen : isSensitiveName asciiLower (text "b.c") = false := by decide
      have hsource : isEligibleName asciiLower (text "b.c") = true := by decide
      exact Walk.keepsFile_iff.mpr ⟨rfl, hopen, hsource⟩
  have hlarge := selectProjectFiles_eq_nil_iff.mp hnone _ hlisted ['y'] 1 rfl
  exact absurd hlarge (by decide)

/-- With `--force` and the output directory `p/src`, a generated file `a.c` replaces the
one of the project. -/
theorem not_untouched_smallProject :
    ¬ Untouched asciiLower plainPrinter smallDisk smallProject Limits.default
        [text "p", text "src"] true := by
  intro h
  have hproject : ProjectFile smallDisk smallProject.root
      [['p'], ['s', 'r', 'c'], ['a', '.', 'c']] :=
    ⟨⟨[['p']], by decide, by decide⟩, ['s'], by decide⟩
  have hkept := h (responseOf (suiteValue [] [⟨text "a.c", []⟩]) []) _ hproject
  have hresolve : resolve smallDisk.store [text "p", text "src"] = some [text "p", text "src"] := by
    decide
  rw [writeResults_of_eligible hresolve (by decide)
    (selectProjectFiles_smallProject _)] at hkept
  have hafter : (writeSuite asciiLower plainPrinter smallDisk [text "p", text "src"]
      (responseOf (suiteValue [] [⟨text "a.c", []⟩]) []) true).1
        [['p'], ['s', 'r', 'c'], ['a', '.', 'c']] = some (.file []) := by decide +kernel
  rw [hafter] at hkept
  exact absurd hkept (by decide)

end Icflow.Generate
