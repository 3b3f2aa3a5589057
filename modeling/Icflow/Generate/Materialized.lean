import Icflow.Generate.SafePath
import Icflow.Generate.Targets
import Mathlib.Data.List.Nodup

set_option autoImplicit false

/-!
# What a suite that has been materialized leaves

When `materialize_suite` returns, every entry has been saved at its target.  That the
files are those of the suite takes more than distinct targets: two names that differ can
be the same bytes for the system (`faithful_iff`).
-/

namespace Icflow.Generate

open Icflow.Foundation

variable {lower : Name → Name} {disk : Disk} {outputDir : Path} {generated : Json Nat}
  {force : Bool} {fs fs' : FileSystem} {root : Path} {rootKey : Key} {entries : List FileEntry}
  {written : List Path} {done : List (Key × List Char)}

/-- A run of `materialize_suite` that returns: what it has checked, and what it has saved
in the file system with the output directory. -/
structure Materialized (lower : Name → Name) (disk : Disk) (outputDir : Path)
    (generated : Json Nat) (force : Bool) (fs' : FileSystem) (written : List Path)
    (entries : List FileEntry) (fs : FileSystem) (root : Path) (rootKey : Key)
    (done : List (Key × List Char)) : Prop where
  valid : validateGeneratedSuite generated = .ok entries
  prepare : prepareOutputDirectory disk outputDir force = .ok (fs, root)
  prepared : Prepared disk outputDir fs root rootKey
  check : checkTargets lower fs root entries force = .ok written
  saves : (entries.zip written).map toSave = Store.encoded done
  saved : Store.Saved fs done
  after : fs' = Store.outcome fs done

theorem materializeSuite_eq_ok
    (h : materializeSuite lower disk outputDir generated force = (fs', .ok written)) :
    ∃ entries fs root rootKey done,
      Materialized lower disk outputDir generated force fs' written entries fs root rootKey done := by
  unfold materializeSuite at h
  cases hvalid : validateGeneratedSuite generated with
  | error failure => simp [hvalid] at h
  | ok entries =>
      cases hprepare : prepareOutputDirectory disk outputDir force with
      | error failure => simp [hvalid, hprepare] at h
      | ok prepared =>
          obtain ⟨fs, root⟩ := prepared
          cases hcheck : checkTargets lower fs root entries force with
          | error failure => simp [hvalid, hprepare, hcheck] at h
          | ok targets =>
              simp only [hvalid, hprepare, hcheck] at h
              obtain ⟨rootKey, hprepared, _⟩ := prepareOutputDirectory_eq_ok hprepare
              have hlength := (checkTargets_eq_ok hcheck).length_eq
              have hwritten : written = targets := by
                rw [writeTargets_eq_ok h]
                exact List.map_snd_zip hlength.ge
              subst hwritten
              have hencode : ∀ pair ∈ entries.zip written, (encodePath pair.2).isSome = true := by
                intro pair hpair
                obtain ⟨key, hkey, _⟩ := target_of_mem_zip hprepared hcheck hpair
                exact Option.isSome_of_eq_some hkey
              obtain ⟨hstore, hfails⟩ := writeTargets_eq hencode fs
              rw [h] at hstore hfails
              rcases Store.saved_or_interrupted fs ((entries.zip written).map toSave) with
                ⟨done, hsaves, hsaved⟩ | ⟨before, fault, hinterrupted⟩
              · refine ⟨entries, fs, root, rootKey, done, hvalid, hprepare, hprepared, hcheck,
                  hsaves, hsaved, ?_⟩
                rw [hsaves, hsaved.saveAll hprepared.wellFormed] at hstore
                exact hstore
              · obtain ⟨failure, hfailure⟩ :=
                  hfails.mpr ⟨fault, (hinterrupted.saveAll hprepared.wellFormed).1⟩
                cases hfailure

namespace Materialized

theorem targets (h : Materialized lower disk outputDir generated force fs' written entries fs root
      rootKey done) :
    List.Forall₂ (fun entry target => safeGeneratedPath lower fs root entry.path = .ok target)
      entries written := checkTargets_eq_ok h.check

/-- An entry has been saved at its target. -/
theorem entry_saved (h : Materialized lower disk outputDir generated force fs' written entries fs
      root rootKey done) {pair : FileEntry × Path} (hpair : pair ∈ entries.zip written) :
    ∃ key bytes, encodePath pair.2 = some key ∧ encodeText pair.1.content = some bytes ∧
      rootKey <+: key ∧ (key, bytes) ∈ done := by
  obtain ⟨key, hkey, hinside⟩ := target_of_mem_zip h.prepared h.check hpair
  have hmem : toSave pair ∈ Store.encoded done := by
    rw [← h.saves]
    exact List.mem_map_of_mem hpair
  obtain ⟨save, hsave, heq⟩ := List.mem_map.mp hmem
  rw [toSave, hkey, Option.getD_some] at heq
  obtain ⟨hfst, hbytes⟩ := Prod.mk.inj heq
  exact ⟨key, save.2, hkey, hbytes.symm, hinside, by rw [← hfst]; exact hsave⟩

/-- What has been saved is at the targets. -/
theorem keys (h : Materialized lower disk outputDir generated force fs' written entries fs root
      rootKey done) : written.map encodePath = done.map fun save => some save.1 := by
  have hlength := h.targets.length_eq
  have hpairs : written = (entries.zip written).map Prod.snd :=
    (List.map_snd_zip hlength.ge).symm
  have hsaves : done.map (fun save => some save.1) =
      ((entries.zip written).map toSave).map fun save => some save.1 := by
    rw [h.saves, Store.encoded, List.map_map]
    rfl
  rw [hsaves, List.map_map]
  conv_lhs => rw [hpairs, List.map_map]
  refine List.map_congr_left fun pair hpair => ?_
  obtain ⟨key, bytes, hkey, _⟩ := h.entry_saved hpair
  simp [toSave, hkey]

/-- A key has been saved when it is that of a target. -/
theorem mem_saved_iff (h : Materialized lower disk outputDir generated force fs' written entries fs
      root rootKey done) {key : Key} :
    key ∈ done.map Prod.fst ↔ some key ∈ written.map encodePath := by
  rw [h.keys]
  simp

end Materialized

/-! ## Whether the files are those of the suite -/

/-- The files `written` are those of the entries, and nothing else has changed. -/
structure FilesOf (disk : Disk) (root : Path) (entries : List FileEntry) (fs' : FileSystem)
    (written : List Path) : Prop where
  /-- one path for each entry, in order: the one its name leads to below the output directory -/
  targets : List.Forall₂ (fun entry target =>
    resolve fs' (root ++ purePosixParts entry.path) = some target) entries written
  inside : ∀ target ∈ written, root <+: target
  holds : ∀ pair ∈ entries.zip written, ∃ key bytes, encodePath pair.2 = some key ∧
    encodeText pair.1.content = some bytes ∧ fs' key = some (.file bytes)
  /-- no entry has overwritten another -/
  apart : (written.map encodePath).Nodup
  others : ∀ key bytes, some key ∉ written.map encodePath →
    disk.store key = some (.file bytes) → fs' key = some (.file bytes)

/-- The suite is on disk as it was given. -/
def Faithful (disk : Disk) (outputDir : Path) (generated : Json Nat) (fs' : FileSystem)
    (written : List Path) : Prop :=
  ∀ entries root, validateGeneratedSuite generated = .ok entries →
    resolve disk.store outputDir = some root → FilesOf disk root entries fs' written

/-- Where the name of an entry leads, by the links on disk before the run. -/
def placeOf (disk : Disk) (root : Path) (entry : FileEntry) : Option Path :=
  resolve disk.store (root ++ purePosixParts entry.path)

/-- Places that differ are different files for the system, and none is a pipe or a device. -/
def RegularPlaces (disk : Disk) (outputDir : Path) (generated : Json Nat) : Prop :=
  ∀ entries root, validateGeneratedSuite generated = .ok entries →
    resolve disk.store outputDir = some root →
    ∀ entry ∈ entries, ∀ place, placeOf disk root entry = some place →
      (∀ key, encodePath place = some key → disk.store key ≠ some .special) ∧
        ∀ other ∈ entries, ∀ otherPlace, placeOf disk root other = some otherPlace →
          encodePath place = encodePath otherPlace → place = otherPlace

namespace Materialized

variable (h : Materialized lower disk outputDir generated force fs' written entries fs root
  rootKey done)

include h

theorem touches : Store.Touches {key | some key ∈ written.map encodePath} disk.store fs' := by
  have hkeys : {key | key ∈ done.map Prod.fst} ⊆ {key | some key ∈ written.map encodePath} :=
    fun key hkey => h.mem_saved_iff.mp hkey
  rw [h.after]
  exact (h.prepared.touches _).trans ((h.saved.touches h.prepared.wellFormed).mono hkeys)

theorem nodup_iff : (done.map Prod.fst).Nodup ↔ (written.map encodePath).Nodup := by
  have hsome : written.map encodePath = (done.map Prod.fst).map some := by
    rw [h.keys, List.map_map]
    rfl
  rw [hsome, List.nodup_map_iff fun _ _ => Option.some.inj]

/-- The links on disk stay as they are. -/
theorem resolve_eq (path : Path) : resolve fs' path = resolve disk.store path :=
  resolveFrom_congr h.touches.link [] path

/-- The entries go to the targets. -/
theorem places : List.Forall₂ (fun entry target => placeOf disk root entry = some target) entries
    written := by
  refine h.targets.imp fun entry target hsafe => ?_
  rw [placeOf, resolve, ← resolveFrom_congr (h.prepared.touches ∅).link, ← resolve]
  rw [safeGeneratedPath_of_safeName (safeName_of_ok hsafe)] at hsafe
  cases hfound : resolve fs (root ++ purePosixParts entry.path) with
  | none => simp [hfound] at hsafe
  | some found =>
      rw [hfound, h.prepared.resolve_root] at hsafe
      dsimp only at hsafe
      by_cases hinside : root <+: found
      · rw [if_pos hinside] at hsafe
        exact congrArg some (Except.ok.inj hsafe)
      · rw [if_neg hinside] at hsafe
        cases hsafe

/-- The targets are the places of the entries. -/
theorem mem_written_iff {target : Path} :
    target ∈ written ↔ ∃ entry ∈ entries, placeOf disk root entry = some target := by
  constructor
  · exact exists_left_of_forall₂ h.places
  · rintro ⟨entry, hentry, hplace⟩
    obtain ⟨found, hfound, hleads⟩ := exists_right_of_forall₂ h.places hentry
    rwa [Option.some.inj (hplace.symm.trans hleads)]

theorem inside {target : Path} (htarget : target ∈ written) : root <+: target := by
  obtain ⟨entry, _, hsafe⟩ := exists_left_of_forall₂ h.targets htarget
  obtain ⟨found, hfound, hinside⟩ := inside_of_ok hsafe
  rwa [Option.some.inj (h.prepared.resolve_root.symm.trans hfound)]

theorem safeName {entry : FileEntry} (hentry : entry ∈ entries) :
    SafeName lower entry.path := by
  obtain ⟨_, _, hsafe⟩ := exists_right_of_forall₂ h.targets hentry
  exact safeName_of_ok hsafe

/-- A target is taken from an entry. -/
theorem exists_entry {target : Path} (htarget : target ∈ written) :
    ∃ entry, (entry, target) ∈ entries.zip written := by
  have hpairs := List.map_snd_zip h.targets.length_eq.ge
  rw [← hpairs] at htarget
  obtain ⟨pair, hpair, rfl⟩ := List.mem_map.mp htarget
  exact ⟨pair.1, hpair⟩

/-- When the targets are different files, an entry is on disk unless its target is special. -/
theorem holds_iff (hnodup : (written.map encodePath).Nodup) {pair : FileEntry × Path}
    (hpair : pair ∈ entries.zip written) :
    (∃ key bytes, encodePath pair.2 = some key ∧ encodeText pair.1.content = some bytes ∧
        fs' key = some (.file bytes)) ↔
      ∀ key, encodePath pair.2 = some key → disk.store key ≠ some .special := by
  obtain ⟨key, bytes, hkey, hbytes, _, hdone⟩ := h.entry_saved hpair
  have hfile := h.saved.outcome_eq_file_iff (h.nodup_iff.mpr hnodup) hdone
  rw [← h.after, Ne, h.prepared.special_iff] at hfile
  constructor
  · rintro ⟨found, content, hfound, hcontent, hafter⟩ other hother
    obtain rfl := Option.some.inj (hkey.symm.trans hfound)
    obtain rfl := Option.some.inj (hkey.symm.trans hother)
    obtain rfl := Option.some.inj (hbytes.symm.trans hcontent)
    exact hfile.mp hafter
  · intro hregular
    exact ⟨key, bytes, hkey, hbytes, hfile.mpr (hregular key hkey)⟩

end Materialized

/-- A suite that has been materialized is on disk as it was given exactly when its entries
go to different regular files. -/
theorem faithful_iff (lower : Name → Name) (disk : Disk) (outputDir : Path) (generated : Json Nat)
    (force : Bool) (fs' : FileSystem) (written : List Path)
    (hrun : materializeSuite lower disk outputDir generated force = (fs', .ok written)) :
    Faithful disk outputDir generated fs' written ↔ RegularPlaces disk outputDir generated := by
  obtain ⟨entries, fs, root, rootKey, done, h⟩ := materializeSuite_eq_ok hrun
  constructor
  · intro hfaithful entries' root' hvalid hroot entry hentry place hplace
    obtain rfl := Except.ok.inj (h.valid.symm.trans hvalid)
    obtain rfl := Option.some.inj (h.prepared.resolves.symm.trans hroot)
    have hfiles := hfaithful entries root h.valid h.prepared.resolves
    have htarget := h.mem_written_iff.mpr ⟨entry, hentry, hplace⟩
    refine ⟨?_, fun other hother otherPlace hotherPlace => ?_⟩
    · obtain ⟨source, hpair⟩ := h.exists_entry htarget
      exact (h.holds_iff hfiles.apart hpair).mp (hfiles.holds _ hpair)
    · have hotherTarget := h.mem_written_iff.mpr ⟨other, hother, hotherPlace⟩
      exact List.inj_on_of_nodup_map hfiles.apart htarget hotherTarget
  · intro hregular entries' root' hvalid hroot
    obtain rfl := Except.ok.inj (h.valid.symm.trans hvalid)
    obtain rfl := Option.some.inj (h.prepared.resolves.symm.trans hroot)
    have hplaces := hregular entries root h.valid h.prepared.resolves
    have hnodup : (written.map encodePath).Nodup := by
      refine List.Nodup.map_on (fun target htarget other hother => ?_) (checkTargets_nodup h.check)
      obtain ⟨entry, hentry, hplace⟩ := h.mem_written_iff.mp htarget
      obtain ⟨otherEntry, hotherEntry, hotherPlace⟩ := h.mem_written_iff.mp hother
      exact (hplaces entry hentry target hplace).2 otherEntry hotherEntry other hotherPlace
    refine ⟨?_, fun target => h.inside, ?_, hnodup, ?_⟩
    · exact h.places.imp fun entry target hplace => (h.resolve_eq _).trans hplace
    · intro pair hpair
      obtain ⟨entry, hentry, hplace⟩ := h.mem_written_iff.mp (List.of_mem_zip hpair).2
      exact (h.holds_iff hnodup hpair).mpr (hplaces entry hentry pair.2 hplace).1
    · intro key bytes hkey hfile
      exact (h.touches.file key hkey bytes).mpr hfile

/-! ## Runs without `--force` -/

section WithoutForce

variable (h : Materialized lower disk outputDir generated false fs' written entries fs root rootKey
  done)

include h

/-- The entries go where their names say. -/
theorem Materialized.placeOf_eq {entry : FileEntry} (hentry : entry ∈ entries) :
    (encodePath (purePosixParts entry.path)).isSome = true ∧
      placeOf disk root entry = some (root ++ purePosixParts entry.path) := by
  obtain ⟨target, _, hplace⟩ := exists_right_of_forall₂ h.places hentry
  have hdots := (h.safeName hentry).dotdot_notMem
  obtain ⟨hencodes, rfl⟩ := (resolve_below_output h.prepare h.prepared rfl hdots).mp hplace
  exact ⟨hencodes, hplace⟩

end WithoutForce

/-- Without `--force` names are only confused when different components are the same bytes. -/
theorem regularPlaces_iff_without_force
    (hrun : materializeSuite lower disk outputDir generated false = (fs', .ok written)) :
    RegularPlaces disk outputDir generated ↔
      ∀ entries, validateGeneratedSuite generated = .ok entries →
        ∀ entry ∈ entries, ∀ other ∈ entries,
          encodePath (purePosixParts entry.path) = encodePath (purePosixParts other.path) →
          purePosixParts entry.path = purePosixParts other.path := by
  obtain ⟨entries, fs, root, rootKey, done, h⟩ := materializeSuite_eq_ok hrun
  constructor
  · intro hregular entries' hvalid entry hentry other hother hsame
    obtain rfl := Except.ok.inj (h.valid.symm.trans hvalid)
    have hplaces := (hregular entries root h.valid h.prepared.resolves entry hentry _
      (h.placeOf_eq hentry).2).2 other hother _ (h.placeOf_eq hother).2
    rw [encodePath_below h.prepared.encodes, encodePath_below h.prepared.encodes, hsame] at hplaces
    exact List.append_cancel_left (hplaces rfl)
  · intro hapart entries' root' hvalid hroot entry hentry place hplace
    obtain rfl := Except.ok.inj (h.valid.symm.trans hvalid)
    obtain rfl := Option.some.inj (h.prepared.resolves.symm.trans hroot)
    obtain rfl := Option.some.inj (hplace.symm.trans (h.placeOf_eq hentry).2)
    refine ⟨fun key hkey hspecial => ?_, fun other hother otherPlace hotherPlace hsame => ?_⟩
    · have habove := above_of_encodePath (h.safeName hentry).parts_ne_nil h.prepared.encodes hkey
      rw [nothing_below_output h.prepare h.prepared rfl habove] at hspecial
      cases hspecial
    · obtain rfl := Option.some.inj (hotherPlace.symm.trans (h.placeOf_eq hother).2)
      rw [encodePath_below h.prepared.encodes, encodePath_below h.prepared.encodes] at hsame
      have hparts := Option.map_injective (List.append_right_injective rootKey) hsame
      rw [hapart entries h.valid entry hentry other hother hparts]

/-! ## Two spellings of one file name -/

/-- The files `é`, once by its code point and once by the two bytes of its encoding. -/
def twoSpellings : Json Nat := suiteValue [] [⟨[0xE9], text "x"⟩, ⟨[0xDCC3, 0xDCA9], text "y"⟩]

/-- The second file replaces the first. -/
theorem not_faithful_twoSpellings :
    ∃ fs' written, materializeSuite asciiLower emptyDisk [text "out"] twoSpellings false =
      (fs', .ok written) ∧ ¬ Faithful emptyDisk [text "out"] twoSpellings fs' written := by
  have hreturns : (materializeSuite asciiLower emptyDisk [text "out"] twoSpellings false).2 =
      .ok [[text "out", [0xE9]], [text "out", [0xDCC3, 0xDCA9]]] := by decide
  refine ⟨_, _, Prod.ext rfl hreturns, ?_⟩
  intro hfaithful
  have hfiles := hfaithful _ [text "out"] rfl (by decide)
  exact absurd hfiles.apart (by decide)

/-- An output directory that is in use: it has a test, another file, a link to the tests and
a report of an earlier run, and beside it there is a file of somebody else. -/
def usedDisk : Disk where
  objects := [([['o', 'u', 't']], .directory), ([['o', 'u', 't'], ['t']], .directory),
    ([['o', 'u', 't'], ['t'], ['a', '.', 'c']], .file ['o', 'l', 'd']),
    ([['o', 'u', 't'], ['n', 'o', 't', 'e', 's']], .file ['n']),
    ([['o', 'u', 't'], ['m', 'o', 'r', 'e']], .symlink [text "out", text "t"]),
    ([['o', 'u', 't'], "generation.json".toList], .file ['\x7b', '\x7d']),
    ([['m', '.', 'c']], .file ['m'])]
  inDirectory := by decide
  linksPlain := by
    simp only [List.forall_mem_cons, reduceCtorEq, false_imp_iff, implies_true, true_and,
      Node.symlink.injEq, forall_eq']
    exact ⟨⟨by decide, by decide⟩, List.forall_mem_nil _⟩

/-- A suite that replaces the test, adds one through the link and one in a new directory. -/
def threeFiles : Json Nat :=
  suiteValue (text "three") [⟨text "t/a.c", text "x"⟩, ⟨text "more/b.c", text "y"⟩,
    ⟨text "doc/plan", text "z"⟩]

theorem materializeSuite_threeFiles :
    (materializeSuite asciiLower usedDisk [text "out"] threeFiles true).2 =
      .ok [[text "out", text "t", text "a.c"], [text "out", text "t", text "b.c"],
        [text "out", text "doc", text "plan"]] := by
  decide +kernel

theorem faithful_iff_threeFiles :
    Faithful usedDisk [text "out"] threeFiles
        (materializeSuite asciiLower usedDisk [text "out"] threeFiles true).1
        [[text "out", text "t", text "a.c"], [text "out", text "t", text "b.c"],
          [text "out", text "doc", text "plan"]] ↔
      RegularPlaces usedDisk [text "out"] threeFiles :=
  faithful_iff asciiLower usedDisk [text "out"] _ true _ _ (Prod.ext rfl materializeSuite_threeFiles)

end Icflow.Generate
