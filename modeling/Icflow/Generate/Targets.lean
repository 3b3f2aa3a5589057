import Icflow.Generate.Suite
import Mathlib.Data.List.Forall2

set_option autoImplicit false

/-!
# What the checks of a suite establish

One lemma for each function that `materialize_suite` calls before it writes, and the
write loop as `saveAll` over keys.
-/

namespace Icflow.Generate

open Icflow.Foundation

theorem exists_left_of_forall₂ {α β : Type} {r : α → β → Prop} {first : List α} {second : List β}
    (h : List.Forall₂ r first second) {b : β} (hb : b ∈ second) : ∃ a ∈ first, r a b := by
  induction h with
  | nil => cases hb
  | cons hr _ ih =>
      rcases List.mem_cons.mp hb with rfl | hrest
      · exact ⟨_, List.mem_cons_self, hr⟩
      · obtain ⟨a, ha, hab⟩ := ih hrest
        exact ⟨a, List.mem_cons_of_mem _ ha, hab⟩

theorem exists_right_of_forall₂ {α β : Type} {r : α → β → Prop} {first : List α} {second : List β}
    (h : List.Forall₂ r first second) {a : α} (ha : a ∈ first) : ∃ b ∈ second, r a b := by
  have hflip : List.Forall₂ (flip r) second first := List.Forall₂.flip h
  exact exists_left_of_forall₂ hflip ha

/-! ## The suite -/

theorem validateEntry_eq_ok {item : Json Nat} {entry : FileEntry}
    (h : validateEntry item = .ok entry) :
    ∃ fields, item = .obj fields ∧ getString fields (text "path") = some entry.path ∧
      entry.path.length ≤ 240 := by
  unfold validateEntry at h
  cases hfields : dictMembers item with
  | none =>
      rw [hfields] at h
      cases h
  | some fields =>
      simp only [hfields] at h
      have hitem : item = .obj fields := by
        cases item with
        | obj members => exact congrArg Json.obj (Option.some.inj hfields)
        | null => cases hfields
        | bool value => cases hfields
        | num lexeme => cases hfields
        | str value => cases hfields
        | arr elements => cases hfields
      cases hentry : fileEntry fields with
      | none =>
          rw [hentry] at h
          cases h
      | some found =>
          simp only [hentry] at h
          split at h
          · cases h
          · rename_i hlength
            split at h
            · cases h
            · obtain rfl := Except.ok.inj h
              refine ⟨fields, hitem, ?_, Nat.le_of_not_lt hlength⟩
              unfold fileEntry at hentry
              split at hentry
              · rename_i path purpose content hpath _ _
                obtain rfl := Option.some.inj hentry
                exact hpath
              · cases hentry

theorem validateEntries_eq_ok {items : List (Json Nat)} {entries : List FileEntry}
    (h : validateEntries items = .ok entries) :
    List.Forall₂ (fun item entry => validateEntry item = .ok entry) items entries := by
  induction items generalizing entries with
  | nil =>
      obtain rfl := Except.ok.inj h
      exact .nil
  | cons item rest ih =>
      unfold validateEntries at h
      cases hitem : validateEntry item with
      | error failure =>
          rw [hitem] at h
          cases h
      | ok entry =>
          simp only [hitem] at h
          cases hrest : validateEntries rest with
          | error failure =>
              rw [hrest] at h
              cases h
          | ok later =>
              rw [hrest] at h
              obtain rfl := Except.ok.inj h
              exact .cons hitem (ih hrest)

/-- Where the entries of a valid suite come from. -/
theorem validateGeneratedSuite_eq_ok {generated : Json Nat} {entries : List FileEntry}
    (h : validateGeneratedSuite generated = .ok entries) :
    ∃ members files, generated = .obj members ∧
      getField members (text "files") = some (.arr files) ∧
      List.Forall₂ (fun item entry => validateEntry item = .ok entry) files entries := by
  unfold validateGeneratedSuite at h
  cases generated with
  | null => cases h
  | bool value => cases h
  | num lexeme => cases h
  | str value => cases h
  | arr elements => cases h
  | obj members =>
      dsimp only [dictMembers] at h
      split at h
      · cases h
      · split at h
        · split at h
          · cases h
          · split at h
            · rename_i files hfiles
              split at h
              · cases h
              · cases hentries : validateEntries files with
                | error failure =>
                    rw [hentries] at h
                    cases h
                | ok found =>
                    simp only [hentries] at h
                    split at h
                    · cases h
                    · obtain rfl := Except.ok.inj h
                      exact ⟨members, files, rfl, hfiles, validateEntries_eq_ok hentries⟩
            · cases h
        · cases h

/-! ## The output directory -/

/-- The output directory is there, under its resolved path, and nothing else is new. -/
structure Prepared (disk : Disk) (outputDir : Path) (fs : FileSystem) (root : Path)
    (rootKey : Key) : Prop where
  resolves : resolve disk.store outputDir = some root
  encodes : encodePath root = some rootKey
  passable : ∀ upper, upper <+: rootKey → Store.Passable disk.store upper
  made : fs = Store.withDirectories disk.store rootKey

variable {disk : Disk} {outputDir root : Path} {fs : FileSystem} {rootKey : Key} {force : Bool}
  {lower : Name → Name}

theorem prepareOutputDirectory_eq_ok
    (h : prepareOutputDirectory disk outputDir force = .ok (fs, root)) :
    ∃ rootKey, Prepared disk outputDir fs root rootKey ∧
      (disk.store rootKey = some .directory → force = false → disk.hasEntries rootKey = false) := by
  unfold prepareOutputDirectory at h
  cases hresolve : resolve disk.store outputDir with
  | none =>
      rw [hresolve] at h
      cases h
  | some resolved =>
      simp only [hresolve] at h
      cases hkey : encodePath resolved with
      | none =>
          rw [hkey] at h
          cases h
      | some key =>
          simp only [hkey] at h
          by_cases hrefuse : disk.store key = some .directory ∧ disk.hasEntries key = true ∧
              force = false
          · rw [if_pos hrefuse] at h
            cases h
          · rw [if_neg hrefuse] at h
            cases hmkdir : Store.mkdir disk.store key with
            | none =>
                rw [hmkdir] at h
                cases h
            | some made =>
                rw [hmkdir] at h
                obtain ⟨rfl, rfl⟩ := Prod.mk.inj (Except.ok.inj h)
                obtain ⟨hclear, hmade⟩ := Store.mkdir_eq_some disk.wellFormed hmkdir
                refine ⟨key, ⟨hresolve, hkey, hclear, hmade⟩, ?_⟩
                intro hdirectory hforce
                by_contra hentries
                exact hrefuse ⟨hdirectory, (Bool.not_eq_false _).mp hentries, hforce⟩

namespace Prepared

theorem wellFormed (h : Prepared disk outputDir fs root rootKey) : Store.WellFormed fs := by
  rw [h.made]
  exact disk.wellFormed.withDirectories rootKey

theorem sameFilesBelow (h : Prepared disk outputDir fs root rootKey) (directory : Key) :
    Store.SameFilesBelow directory disk.store fs := by
  rw [h.made]
  exact Store.sameFilesBelow_withDirectories directory h.passable

theorem directory (h : Prepared disk outputDir fs root rootKey) {upper : Key}
    (hupper : upper <+: rootKey) : fs upper = some .directory := by
  rw [h.made]
  exact Store.withDirectories_upper hupper

/-- The links on disk are those of the file system the suite is written to. -/
theorem touches (h : Prepared disk outputDir fs root rootKey) (written : Set Key) :
    Store.Touches written disk.store fs := by
  have hmkdir : Store.mkdir disk.store rootKey = some fs := by
    rw [h.made]
    exact Store.mkdir_of_passable disk.wellFormed h.passable
  exact Store.touches_mkdir disk.wellFormed hmkdir

theorem special_iff (h : Prepared disk outputDir fs root rootKey) (key : Key) :
    fs key = some .special ↔ disk.store key = some .special := by
  by_cases hkey : key <+: rootKey
  · rw [h.directory hkey]
    rcases h.passable key hkey with hnone | hdirectory
    · simp [hnone]
    · simp [hdirectory]
  · rw [h.made, Store.withDirectories_other hkey]

theorem directory_iff (h : Prepared disk outputDir fs root rootKey) (key : Key) :
    fs key = some .directory ↔ disk.store key = some .directory ∨ key <+: rootKey := by
  by_cases hkey : key <+: rootKey
  · simp [h.directory hkey, hkey]
  · simp [h.made, Store.withDirectories_other hkey, hkey]

theorem none_iff (h : Prepared disk outputDir fs root rootKey) (key : Key) :
    fs key = none ↔ disk.store key = none ∧ ¬ key <+: rootKey := by
  by_cases hkey : key <+: rootKey
  · simp [h.directory hkey, hkey]
  · simp [h.made, Store.withDirectories_other hkey, hkey]

theorem linksPlain (h : Prepared disk outputDir fs root rootKey) : LinksPlain fs := by
  intro key target hlink
  by_cases hkey : key <+: rootKey
  · rw [h.directory hkey] at hlink
    cases hlink
  · rw [h.made, Store.withDirectories_other hkey] at hlink
    exact disk.store_linksPlain key target hlink

theorem plain (h : Prepared disk outputDir fs root rootKey) : Plain root :=
  resolve_plain disk.store_linksPlain h.resolves

/-- The output directory is under its resolved path. -/
theorem resolve_root (h : Prepared disk outputDir fs root rootKey) :
    resolve fs root = some root := by
  refine resolve_straight h.plain ?_
  intro reached key hreached hkey target hlink
  rw [h.directory (prefix_of_encodePath hreached hkey h.encodes)] at hlink
  cases hlink

end Prepared

/-- Without `--force` the output directory is empty. -/
theorem nothing_below_output (hprepare : prepareOutputDirectory disk outputDir force = .ok (fs, root))
    (hprepared : Prepared disk outputDir fs root rootKey) (hforce : force = false) {key : Key}
    (habove : Store.Above rootKey key) : disk.store key = none := by
  obtain ⟨rootKey', hprepared', hempty⟩ := prepareOutputDirectory_eq_ok hprepare
  obtain rfl := Option.some.inj (hprepared.encodes.symm.trans hprepared'.encodes)
  by_contra hsome
  exact hsome (disk.store_of_above
    (hempty (disk.wellFormed.above hsome habove) hforce) habove)

/-- So names without `..` lead where they say. -/
theorem resolve_below_output (hprepare : prepareOutputDirectory disk outputDir force = .ok (fs, root))
    (hprepared : Prepared disk outputDir fs root rootKey) (hforce : force = false)
    {parts resolved : Path} (hdots : dotdot ∉ parts) :
    resolve disk.store (root ++ parts) = some resolved ↔
      (encodePath parts).isSome = true ∧ resolved = root ++ parts := by
  have hroot : resolve disk.store root = some root :=
    (resolveFrom_congr (hprepared.touches ∅).link [] root).symm.trans hprepared.resolve_root
  rw [resolve, resolveFrom_append, ← resolve, hroot, Option.bind_some]
  refine resolveFrom_below_iff hprepared.plain.encodes hdots ?_
  intro reached key hne hkey _ target hlink
  rw [nothing_below_output hprepare hprepared hforce
    (above_of_encodePath hne hprepared.encodes hkey)] at hlink
  cases hlink

/-! ## The targets -/

/-- A file may be written at `target`. -/
theorem safeGeneratedPath_eq_ok (h : Prepared disk outputDir fs root rootKey)
    {name : Name} {target : Path} (hsafe : safeGeneratedPath lower fs root name = .ok target) :
    ∃ key, encodePath target = some key ∧ rootKey <+: key := by
  unfold safeGeneratedPath at hsafe
  split at hsafe
  · cases hsafe
  · dsimp only at hsafe
    split at hsafe
    · cases hsafe
    · split at hsafe
      · cases hsafe
      · cases hresolve : resolve fs (root ++ purePosixParts name) with
        | none =>
            rw [hresolve] at hsafe
            cases hsafe
        | some resolved =>
            rw [hresolve, h.resolve_root] at hsafe
            dsimp only at hsafe
            by_cases hinside : root <+: resolved
            · rw [if_pos hinside] at hsafe
              obtain rfl := Except.ok.inj hsafe
              obtain ⟨key, hkey⟩ :=
                Option.isSome_iff_exists.mp (resolve_plain h.linksPlain hresolve).encodes
              exact ⟨key, hkey, prefix_of_encodePath hinside h.encodes hkey⟩
            · rw [if_neg hinside] at hsafe
              cases hsafe

/-- The targets of a list of entries. -/
theorem safeTargets_eq_ok {entries : List FileEntry} {targets : List Path}
    (h : safeTargets lower fs root entries = .ok targets) :
    List.Forall₂ (fun entry target => safeGeneratedPath lower fs root entry.path = .ok target)
      entries targets := by
  induction entries generalizing targets with
  | nil =>
      obtain rfl := Except.ok.inj h
      exact .nil
  | cons entry rest ih =>
      unfold safeTargets at h
      cases hsafe : safeGeneratedPath lower fs root entry.path with
      | error failure =>
          rw [hsafe] at h
          cases h
      | ok target =>
          simp only [hsafe] at h
          cases hrest : safeTargets lower fs root rest with
          | error failure =>
              rw [hrest] at h
              cases h
          | ok later =>
              rw [hrest] at h
              obtain rfl := Except.ok.inj h
              exact .cons hsafe (ih hrest)

theorem checkTargets_eq_ok {entries : List FileEntry} {targets : List Path}
    (h : checkTargets lower fs root entries force = .ok targets) :
    List.Forall₂ (fun entry target => safeGeneratedPath lower fs root entry.path = .ok target)
      entries targets := by
  unfold checkTargets at h
  cases hsafe : safeTargets lower fs root entries with
  | error failure =>
      rw [hsafe] at h
      cases h
  | ok found =>
      simp only [hsafe] at h
      split at h
      · cases h
      · cases hfind : found.find? fun target => pathExists fs target && !force with
        | some target =>
            rw [hfind] at h
            cases h
        | none =>
            rw [hfind] at h
            obtain rfl := Except.ok.inj h
            exact safeTargets_eq_ok hsafe

/-- The targets are distinct as Python paths. -/
theorem checkTargets_nodup {entries : List FileEntry} {targets : List Path}
    (h : checkTargets lower fs root entries force = .ok targets) : targets.Nodup := by
  unfold checkTargets at h
  cases hsafe : safeTargets lower fs root entries with
  | error failure =>
      rw [hsafe] at h
      cases h
  | ok found =>
      simp only [hsafe] at h
      by_cases hnodup : found.Nodup
      · rw [if_neg (not_not.mpr hnodup)] at h
        cases hfind : found.find? fun target => pathExists fs target && !force with
        | some target =>
            rw [hfind] at h
            cases h
        | none =>
            rw [hfind] at h
            obtain rfl := Except.ok.inj h
            exact hnodup
      · rw [if_pos hnodup] at h
        cases h

/-! ## The write loop -/

/-- What is saved for an entry at its target. -/
def toSave (entry : FileEntry × Path) : Key × Option (List Char) :=
  ((encodePath entry.2).getD [], encodeText entry.1.content)

/-- The write loop saves one file after the other. -/
theorem writeTargets_eq {pairs : List (FileEntry × Path)}
    (hencode : ∀ pair ∈ pairs, (encodePath pair.2).isSome = true) (fs : FileSystem) :
    (writeTargets fs pairs).1 = (Store.saveAll fs (pairs.map toSave)).1 ∧
      ((∃ failure, (writeTargets fs pairs).2 = .error failure) ↔
        ∃ fault, (Store.saveAll fs (pairs.map toSave)).2 = .error fault) := by
  induction pairs generalizing fs with
  | nil => simp [writeTargets, Store.saveAll]
  | cons pair rest ih =>
      obtain ⟨entry, target⟩ := pair
      obtain ⟨hfirst, hrest⟩ := List.forall_mem_cons.mp hencode
      obtain ⟨key, hkey⟩ := Option.isSome_iff_exists.mp hfirst
      have hsave : toSave (entry, target) = (key, encodeText entry.content) := by
        rw [toSave, hkey, Option.getD_some]
      rw [List.map_cons, hsave, Store.saveAll, writeTargets]
      simp only [hkey]
      cases hresult : Store.save fs key (encodeText entry.content) with
      | mk fs' result =>
          cases result with
          | error fault => exact ⟨rfl, ⟨fun _ => ⟨fault, rfl⟩, fun _ => ⟨_, rfl⟩⟩⟩
          | ok _ =>
              obtain ⟨hstore, hfails⟩ := ih hrest fs'
              dsimp only
              cases hwritten : writeTargets fs' rest with
              | mk fs'' result =>
                  rw [hwritten] at hstore hfails
                  cases result with
                  | error failure => exact ⟨hstore, hfails⟩
                  | ok written => exact ⟨hstore, by simpa using hfails⟩

/-- A write loop that ends returns the targets in their order. -/
theorem writeTargets_eq_ok {pairs : List (FileEntry × Path)} {fs fs' : FileSystem}
    {written : List Path} (h : writeTargets fs pairs = (fs', .ok written)) :
    written = pairs.map Prod.snd := by
  induction pairs generalizing fs written with
  | nil =>
      obtain ⟨_, hwritten⟩ := Prod.mk.inj h
      exact (Except.ok.inj hwritten).symm
  | cons pair rest ih =>
      obtain ⟨entry, target⟩ := pair
      unfold writeTargets at h
      cases hkey : encodePath target with
      | none => simp [hkey] at h
      | some key =>
          simp only [hkey] at h
          cases hsave : Store.save fs key (encodeText entry.content) with
          | mk fs₁ result =>
              rw [hsave] at h
              cases result with
              | error fault => simp at h
              | ok _ =>
                  dsimp only at h
                  cases hrest : writeTargets fs₁ rest with
                  | mk fs₂ result =>
                      rw [hrest] at h
                      cases result with
                      | error failure => simp at h
                      | ok later =>
                          obtain ⟨rfl, hwritten⟩ := Prod.mk.inj h
                          rw [List.map_cons, ← ih hrest]
                          exact (Except.ok.inj hwritten).symm

/-! ## The suite as a whole -/

/-- Everything that is checked before the first write is in order: `saves` is what is
saved in the file system `fs`. -/
def Accepted (lower : Name → Name) (disk : Disk) (outputDir : Path) (generated : Json Nat)
    (force : Bool) (fs : FileSystem) (saves : List (Key × Option (List Char))) : Prop :=
  ∃ entries root targets, validateGeneratedSuite generated = .ok entries ∧
    prepareOutputDirectory disk outputDir force = .ok (fs, root) ∧
    checkTargets lower fs root entries force = .ok targets ∧
    saves = (entries.zip targets).map toSave

variable {generated : Json Nat}

/-- A suite that is not accepted is an error and leaves all files alone. -/
theorem materializeSuite_of_refused (hrefused : ∀ fs saves,
    ¬ Accepted lower disk outputDir generated force fs saves) :
    (∃ failure, (materializeSuite lower disk outputDir generated force).2 = .error failure) ∧
      ∀ directory, Store.SameFilesBelow directory disk.store
        (materializeSuite lower disk outputDir generated force).1 := by
  unfold materializeSuite
  cases hvalid : validateGeneratedSuite generated with
  | error failure => exact ⟨⟨failure, rfl⟩, fun _ _ _ _ => Iff.rfl⟩
  | ok entries =>
      dsimp only
      cases hprepare : prepareOutputDirectory disk outputDir force with
      | error failure => exact ⟨⟨failure, rfl⟩, fun _ _ _ _ => Iff.rfl⟩
      | ok prepared =>
          obtain ⟨fs, root⟩ := prepared
          dsimp only
          cases hcheck : checkTargets lower fs root entries force with
          | error failure =>
              obtain ⟨rootKey, hprepared, _⟩ := prepareOutputDirectory_eq_ok hprepare
              exact ⟨⟨failure, rfl⟩, hprepared.sameFilesBelow⟩
          | ok targets =>
              exact absurd ⟨entries, root, targets, hvalid, hprepare, hcheck, rfl⟩
                (hrefused fs ((entries.zip targets).map toSave))

/-- The pairs of the write loop have targets below the output directory. -/
theorem target_of_mem_zip {fs : FileSystem} {root : Path} {rootKey : Key}
    (hprepared : Prepared disk outputDir fs root rootKey) {entries : List FileEntry}
    {targets : List Path} (hcheck : checkTargets lower fs root entries force = .ok targets)
    {pair : FileEntry × Path} (hpair : pair ∈ entries.zip targets) :
    ∃ key, encodePath pair.2 = some key ∧ rootKey <+: key :=
  safeGeneratedPath_eq_ok hprepared (List.forall₂_zip (checkTargets_eq_ok hcheck) hpair)

/-- An accepted suite is saved file by file, below the output directory. -/
theorem materializeSuite_of_accepted {fs : FileSystem} {saves : List (Key × Option (List Char))}
    (h : Accepted lower disk outputDir generated force fs saves) :
    ∃ root rootKey, Prepared disk outputDir fs root rootKey ∧
      (∀ save ∈ saves, rootKey <+: save.1) ∧
      (materializeSuite lower disk outputDir generated force).1 = (Store.saveAll fs saves).1 ∧
      ((∃ failure, (materializeSuite lower disk outputDir generated force).2 = .error failure) ↔
        ∃ fault, (Store.saveAll fs saves).2 = .error fault) := by
  obtain ⟨entries, root, targets, hvalid, hprepare, hcheck, rfl⟩ := h
  obtain ⟨rootKey, hprepared, _⟩ := prepareOutputDirectory_eq_ok hprepare
  have htarget := fun (pair : FileEntry × Path) (hpair : pair ∈ entries.zip targets) =>
    target_of_mem_zip hprepared hcheck hpair
  have hencode : ∀ pair ∈ entries.zip targets, (encodePath pair.2).isSome = true := by
    intro pair hpair
    obtain ⟨key, hkey, _⟩ := htarget pair hpair
    exact Option.isSome_of_eq_some hkey
  refine ⟨root, rootKey, hprepared, ?_, ?_⟩
  · rw [List.forall_mem_map]
    intro pair hpair
    obtain ⟨key, hkey, hbelow⟩ := htarget pair hpair
    rw [toSave, hkey]
    exact hbelow
  · rw [materializeSuite, hvalid]
    simp only [hprepare, hcheck]
    exact writeTargets_eq hencode fs

/-! ## Suites as JSON values -/

/-- A file entry of a suite. -/
def entryValue (entry : FileEntry) : Json Nat :=
  .obj [(text "path", .str entry.path), (text "purpose", .str []),
    (text "content", .str entry.content)]

/-- A suite with a summary and some files. -/
def suiteValue (summary : Name) (entries : List FileEntry) : Json Nat :=
  .obj [(text "summary", .str summary), (text "detected_build_system", .str []),
    (text "recommended_test_command", .str []), (text "files", .arr (entries.map entryValue)),
    (text "integration_notes", .arr [])]

theorem fileEntry_entryValue (entry : FileEntry) :
    validateEntry (entryValue entry) =
      if 240 < entry.path.length then .error .pathTooLong
      else if 200000 < entry.content.length then .error (.fileTooLarge entry.path)
      else .ok entry := rfl

/-- A suite of few and short files is valid. -/
theorem validateGeneratedSuite_suiteValue (summary : Name) {entries : List FileEntry}
    (hcount : entries.length ≤ 1)
    (hshort : ∀ entry ∈ entries, entry.path.length ≤ 240 ∧ entry.content.length ≤ 200000) :
    validateGeneratedSuite (suiteValue summary entries) = .ok entries := by
  have hentries : validateEntries (entries.map entryValue) = .ok entries := by
    clear hcount
    induction entries with
    | nil => rfl
    | cons entry rest ih =>
        obtain ⟨⟨hpath, hcontent⟩, hrest⟩ := List.forall_mem_cons.mp hshort
        rw [List.map_cons, validateEntries, fileEntry_entryValue, if_neg (Nat.not_lt.mpr hpath),
          if_neg (Nat.not_lt.mpr hcontent)]
        simp only [ih hrest]
  have hstrings : stringFields.find? (fun field => (getString
      [(text "summary", .str summary), (text "detected_build_system", .str []),
        (text "recommended_test_command", .str []), (text "files", .arr (entries.map entryValue)),
        (text "integration_notes", .arr [])] field).isNone) = none := rfl
  have hsum : ¬ maxGeneratedCharacters < (entries.map fun entry => entry.content.length).sum := by
    cases entries with
    | nil => simp [maxGeneratedCharacters]
    | cons entry rest =>
        have hrest : rest = [] := List.eq_nil_of_length_eq_zero (by simpa using hcount)
        have hcontent := (hshort entry List.mem_cons_self).2
        subst hrest
        rw [List.map_cons, List.map_nil, List.sum_cons, List.sum_nil, maxGeneratedCharacters]
        omega
  have hfew : ¬ 100 < (entries.map entryValue).length := by
    rw [List.length_map]
    omega
  rw [validateGeneratedSuite, suiteValue]
  simp only [dictMembers, hstrings]
  change (if 100 < (entries.map entryValue).length then _ else _) = _
  rw [if_neg hfew, hentries]
  exact if_neg hsum

end Icflow.Generate
