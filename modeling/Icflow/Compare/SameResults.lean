import Icflow.Compare.Main
import Mathlib.Data.List.Sort

set_option autoImplicit false

/-!
# What a comparison depends on

Result files are named by their paths below a root and read in the order of these paths.  So
what is printed, what is written and the exit status depend on the names that match and on
what is read from them alone: not on where the roots lie, on the order in which directories
list their entries, or on what else is below the roots.  More results of the candidate do not
make a comparison fail.
-/

namespace Icflow.Compare

open Icflow.Foundation
open Icflow.PinTool

/-- A path with what is read from it. -/
def reading (below : List (List Char) × Tree) : List (List Char) × Option (List Char) :=
  (below.1, readBytes below.2)

/-- The paths that match, with what is read from each. -/
def Directory.readings (directory : Directory) : List (List (List Char) × Option (List Char)) :=
  directory.candidates.map reading

/-- Two roots with the same results: files of one name, or directories. -/
inductive SameResults : List Char × Option Tree → List Char × Option Tree → Prop where
  | refl (root : List Char × Option Tree) : SameResults root root
  | file {resolved resolved' : List Char} (bytes : List Char) :
      filename resolved = filename resolved' →
      SameResults (resolved, some (.file bytes)) (resolved', some (.file bytes))
  | directory {resolved resolved' : List Char} {directory directory' : Directory} :
      (∀ result, result ∈ directory.readings ↔ result ∈ directory'.readings) →
      SameResults (resolved, some (.directory directory.entries))
        (resolved', some (.directory directory'.entries))

/-- Two runs that cannot be told apart but for the message of an error. -/
structure SameAnswer {τ : Type} (run run' : Comparison τ) : Prop where
  stdout : run.stdout = run'.stdout
  store : run.store = run'.store
  status : run.ending.status = run'.ending.status

/-! ## Below a directory -/

section Below

variable {python : Interpreter} {resolved : List Char} {directory directory' : Directory}

/-- Sorting the paths forgets the order of the entries. -/
theorem map_reading_sortedCandidates
    (h : ∀ result, result ∈ directory.readings ↔ result ∈ directory'.readings) :
    directory.sortedCandidates.map reading = directory'.sortedCandidates.map reading := by
  have hsorted : ∀ directory : Directory, (directory.sortedCandidates.map reading).Pairwise
      fun first second => compare first.1 second.1 = .lt := by
    intro directory
    rw [List.pairwise_map]
    exact directory.pairwise_sortedCandidates
  have hmem : ∀ (directory : Directory) (result : List (List Char) × Option (List Char)),
      result ∈ directory.sortedCandidates.map reading ↔ result ∈ directory.readings := by
    intro directory result
    exact ((List.mergeSort_perm _ _).map reading).mem_iff
  have hnodup : ∀ directory : Directory, (directory.sortedCandidates.map reading).Nodup := by
    intro directory
    refine (hsorted directory).imp ?_
    rintro first second hlt rfl
    have hself : compare first.1 first.1 = .eq := Std.ReflCmp.compare_self
    rw [hself] at hlt
    cases hlt
  have hperm : (directory.sortedCandidates.map reading).Perm
      (directory'.sortedCandidates.map reading) := by
    rw [List.perm_ext_iff_of_nodup (hnodup directory) (hnodup directory')]
    intro result
    rw [hmem, hmem, h]
  refine hperm.eq_of_pairwise ?_ (hsorted directory) (hsorted directory')
  intro first second _ _ hlt hgt
  have hswap : compare second.1 first.1 = (compare first.1 second.1).swap :=
    Std.OrientedCmp.eq_swap
  rw [hlt, hgt] at hswap
  cases hswap

theorem rootLoads_directory_iff :
    RootLoads python resolved (some (.directory directory.entries)) ↔
      (∃ result, result ∈ directory.readings) ∧ ∀ result ∈ directory.readings,
        ∃ bytes, result.2 = some bytes ∧ Loadable python bytes := by
  constructor
  · rintro ⟨hne, hall⟩
    obtain ⟨entry, hentry⟩ := List.exists_mem_of_ne_nil _ hne
    obtain ⟨first, hfirst, _⟩ := List.mem_map.mp hentry
    refine ⟨⟨reading first, List.mem_map_of_mem hfirst⟩, ?_⟩
    intro result hresult
    obtain ⟨below, hbelow, rfl⟩ := List.mem_map.mp hresult
    exact hall _ (List.mem_map_of_mem hbelow)
  · rintro ⟨⟨result, hresult⟩, hall⟩
    obtain ⟨first, hfirst, _⟩ := List.mem_map.mp hresult
    refine ⟨List.ne_nil_of_mem (List.mem_map_of_mem hfirst), ?_⟩
    intro entry hentry
    obtain ⟨below, hbelow, rfl⟩ := List.mem_map.mp hentry
    exact hall _ (List.mem_map_of_mem hbelow)

theorem mem_rootPairs_directory_iff {pair : Pair} :
    pair ∈ RootPairs python resolved (some (.directory directory.entries)) ↔
      ∃ result ∈ directory.readings, ∃ bytes, result.2 = some bytes ∧
        pair.1 = asPosix result.1 ∧ HoldsPair python bytes pair.2.1 pair.2.2 := by
  constructor
  · rintro ⟨entry, hentry, hpair⟩
    obtain ⟨below, hbelow, rfl⟩ := List.mem_map.mp hentry
    exact ⟨reading below, List.mem_map_of_mem hbelow, hpair⟩
  · rintro ⟨result, hresult, hpair⟩
    obtain ⟨below, hbelow, rfl⟩ := List.mem_map.mp hresult
    exact ⟨_, List.mem_map_of_mem hbelow, hpair⟩

/-- The identities are in the order of the paths. -/
theorem identities_directory {pairs : Finset Pair} {files : List (List Char)}
    (h : loadPairs python resolved (some (.directory directory.entries)) = .ok (pairs, files)) :
    files = (directory.sortedCandidates.map reading).map fun result => asPosix result.1 := by
  have hload : loadDirectory python resolved directory = .ok (pairs, files) := h
  by_cases hnil : directory.sortedCandidates = []
  · rw [loadDirectory_of_nil python resolved directory hnil] at hload
    cases hload
  · rw [loadDirectory_of_ne_nil python resolved directory hnil] at hload
    split at hload
    · cases hload
    · rw [← (Prod.mk.inj (Except.ok.inj hload)).2, List.map_map]
      rfl

theorem identities_file {bytes : List Char} {pairs : Finset Pair} {files : List (List Char)}
    (h : loadPairs python resolved (some (.file bytes)) = .ok (pairs, files)) :
    files = [filename resolved] := by
  rw [loadPairs, discoverIcallFiles] at h
  by_cases hsuffix : icallSuffix.isSuffixOf (filename resolved) = true
  · rw [if_pos hsuffix] at h
    dsimp only at h
    split at h
    · cases h
    · exact (Prod.mk.inj (Except.ok.inj h)).2.symm
  · rw [if_neg hsuffix] at h
    cases h

end Below

/-! ## The two runs -/

section Runs

variable {python : Interpreter}

/-- What is loaded is determined by the pairs and by the order of the identities. -/
theorem toOption_loadPairs_eq {root root' : List Char × Option Tree}
    (hloads : RootLoads python root.1 root.2 ↔ RootLoads python root'.1 root'.2)
    (hpairs : RootPairs python root.1 root.2 = RootPairs python root'.1 root'.2)
    (hfiles : ∀ {pairs pairs' files files'}, loadPairs python root.1 root.2 = .ok (pairs, files) →
      loadPairs python root'.1 root'.2 = .ok (pairs', files') → files = files') :
    (loadPairs python root.1 root.2).toOption = (loadPairs python root'.1 root'.2).toOption := by
  rcases loadsOrRaises python root.1 root.2 with
    ⟨hroot, pairs, files, hload, hmem, _⟩ | ⟨hroot, fault, hload⟩
  · rcases loadsOrRaises python root'.1 root'.2 with
      ⟨_, pairs', files', hload', hmem', _⟩ | ⟨hroot', _⟩
    · have hsame : pairs = pairs' := by
        ext pair
        rw [hmem, hmem', hpairs]
      rw [hfiles hload hload', hsame] at hload
      rw [hload, hload']
    · exact absurd (hloads.mp hroot) hroot'
  · rcases loadsOrRaises python root'.1 root'.2 with ⟨hroot', _⟩ | ⟨_, fault', hload'⟩
    · exact absurd (hloads.mpr hroot') hroot
    · rw [hload, hload']
      rfl

theorem SameResults.toOption_loadPairs (python : Interpreter) {root root' : List Char × Option Tree}
    (h : SameResults root root') :
    (loadPairs python root.1 root.2).toOption = (loadPairs python root'.1 root'.2).toOption := by
  cases h with
  | refl => rfl
  | file bytes hname =>
      rename_i resolved resolved'
      have hroot : rootFiles resolved (some (.file bytes)) =
          rootFiles resolved' (some (.file bytes)) := by
        rw [rootFiles, rootFiles, hname]
      refine toOption_loadPairs_eq ?_ ?_ ?_
      · rw [RootLoads, RootLoads, hroot]
      · unfold RootPairs
        rw [hroot]
      · intro pairs pairs' files files' hload hload'
        rw [identities_file hload, identities_file hload', hname]
  | directory hresults =>
      refine toOption_loadPairs_eq ?_ ?_ ?_
      · rw [rootLoads_directory_iff, rootLoads_directory_iff]
        simp only [hresults]
      · ext pair
        rw [mem_rootPairs_directory_iff, mem_rootPairs_directory_iff]
        simp only [hresults]
      · intro pairs pairs' files files' hload hload'
        rw [identities_directory hload, identities_directory hload',
          map_reading_sortedCandidates hresults]

theorem cases_of_toOption_eq {ε α : Type} {first second : Except ε α}
    (h : first.toOption = second.toOption) :
    (∃ value, first = .ok value ∧ second = .ok value) ∨
      ∃ fault fault', first = .error fault ∧ second = .error fault' := by
  cases first with
  | ok value =>
      cases second with
      | ok value' =>
          obtain rfl := Option.some.inj h
          exact Or.inl ⟨value, rfl, rfl⟩
      | error fault' => cases h
  | error fault =>
      cases second with
      | ok value' => cases h
      | error fault' => exact Or.inr ⟨fault, fault', rfl, rfl⟩

/-- A comparison gives the same answer wherever the results lie and whatever lies beside
them. -/
theorem main_of_sameResults (python : Interpreter) (arguments : Arguments) {τ : Type}
    (store : Store (List Char) τ) {baseline candidate : List Char × Option Tree}
    (hbaseline : SameResults arguments.baseline baseline)
    (hcandidate : SameResults arguments.candidate candidate) :
    SameAnswer (main python arguments store)
      (main python { arguments with baseline := baseline, candidate := candidate } store) := by
  unfold main
  dsimp only
  rcases cases_of_toOption_eq (hbaseline.toOption_loadPairs python) with
    ⟨loaded, hload, hload'⟩ | ⟨fault, fault', hload, hload'⟩
  · rw [hload, hload']
    dsimp only
    rcases cases_of_toOption_eq (hcandidate.toOption_loadPairs python) with
      ⟨compared, hcompare, hcompare'⟩ | ⟨fault, fault', hcompare, hcompare'⟩
    · rw [hcompare, hcompare']
      exact ⟨rfl, rfl, rfl⟩
    · rw [hcompare, hcompare']
      exact ⟨rfl, rfl, rfl⟩
  · rw [hload, hload']
    exact ⟨rfl, rfl, rfl⟩

/-! ## More results -/

/-- Every file below the directory that matches is a result file that can be loaded. -/
def Directory.AllAccepted (python : Interpreter) (directory : Directory) : Prop :=
  ∀ result ∈ directory.readings, ∃ bytes, result.2 = some bytes ∧ Loadable python bytes

theorem finite_rootPairs {resolved : List Char} {root : Option Tree}
    (h : RootLoads python resolved root) : (RootPairs python resolved root).Finite := by
  rcases loadsOrRaises python resolved root with ⟨_, pairs, _, _, hpairs, _⟩ | ⟨hnone, _⟩
  · have heq : (pairs : Set Pair) = RootPairs python resolved root := Set.ext hpairs
    rw [← heq]
    exact pairs.finite_toSet
  · exact absurd h hnone

theorem rootPairs_mono {resolved resolved' : List Char} {directory directory' : Directory}
    (h : directory.readings ⊆ directory'.readings) :
    RootPairs python resolved (some (.directory directory.entries)) ⊆
      RootPairs python resolved' (some (.directory directory'.entries)) := by
  intro pair hpair
  obtain ⟨result, hresult, hholds⟩ := mem_rootPairs_directory_iff.mp hpair
  exact mem_rootPairs_directory_iff.mpr ⟨result, h hresult, hholds⟩

/-- More results of the candidate and fewer of the baseline, all of them readable, do not
make a comparison fail. -/
theorem main_of_moreResults (python : Interpreter) {τ : Type} (store : Store (List Char) τ)
    (requireNew : Nat) (jsonOutput : Option (List (List Char)))
    {resolved resolved' : List Char} {baseline baseline' candidate candidate' : Directory}
    (hfewer : baseline'.readings ⊆ baseline.readings) (hsome : baseline'.readings ≠ [])
    (hmore : candidate.readings ⊆ candidate'.readings) (haccepted : candidate'.AllAccepted python)
    (hok : (main python ⟨(resolved, some (.directory baseline.entries)),
      (resolved', some (.directory candidate.entries)), requireNew, jsonOutput⟩
        store).ending.status = 0) :
    (main python ⟨(resolved, some (.directory baseline'.entries)),
      (resolved', some (.directory candidate'.entries)), requireNew, jsonOutput⟩
        store).ending.status = 0 := by
  obtain ⟨⟨hbaseline, hcandidate⟩, hsavable, henough⟩ := (status_main_eq_zero_iff _ _ _).mp hok
  have hbaseline' : RootLoads python resolved (some (.directory baseline'.entries)) := by
    rw [rootLoads_directory_iff]
    refine ⟨List.exists_mem_of_ne_nil _ hsome, ?_⟩
    exact fun result hresult => (rootLoads_directory_iff.mp hbaseline).2 result (hfewer hresult)
  have hcandidate' : RootLoads python resolved' (some (.directory candidate'.entries)) := by
    rw [rootLoads_directory_iff]
    obtain ⟨result, hresult⟩ := (rootLoads_directory_iff.mp hcandidate).1
    exact ⟨⟨result, hmore hresult⟩, haccepted⟩
  refine (status_main_eq_zero_iff _ _ _).mpr ⟨⟨hbaseline', hcandidate'⟩, hsavable, ?_⟩
  refine henough.trans (Set.ncard_le_ncard ?_ ?_)
  · exact Set.sdiff_subset_sdiff (rootPairs_mono hmore) (rootPairs_mono hfewer)
  · exact (finite_rootPairs hcandidate').sdiff

/-! ## Two listings of one run -/

/-- Two result files and a file that is none, in a directory. -/
def firstListing : Directory where
  entries := [("README".toList, .file []), ("b_icall.json".toList, .file "\x7b\x7d".toList),
    ("a_icall.json".toList, .file "\x7b\x7d".toList)]
  distinct := by
    refine ⟨?_, trivial, trivial, trivial, trivial⟩
    decide

/-- The two result files alone, listed in the other order. -/
def secondListing : Directory where
  entries := [("a_icall.json".toList, .file "\x7b\x7d".toList),
    ("b_icall.json".toList, .file "\x7b\x7d".toList)]
  distinct := by
    refine ⟨?_, trivial, trivial, trivial⟩
    decide

theorem readings_firstListing : firstListing.readings.Perm secondListing.readings := by
  decide

theorem main_of_sameResults_listings :
    SameAnswer
      (main asciiPython ⟨("/old".toList, some (.directory firstListing.entries)),
        ("/old/x_icall.json".toList, some (.file "\x7b\x7d".toList)), 0, none⟩
        (fun _ => none : Store (List Char) Unit))
      (main asciiPython ⟨("/new".toList, some (.directory secondListing.entries)),
        ("/new/x_icall.json".toList, some (.file "\x7b\x7d".toList)), 0, none⟩ fun _ => none) := by
  have hnames : filename "/old/x_icall.json".toList = filename "/new/x_icall.json".toList := by
    decide
  exact main_of_sameResults asciiPython
    ⟨("/old".toList, some (.directory firstListing.entries)),
      ("/old/x_icall.json".toList, some (.file "\x7b\x7d".toList)), 0, none⟩ _
    (.directory fun _ => readings_firstListing.mem_iff) (.file _ hnames)

/-- A file with a call, and one without. -/
def earlierRuns : Directory where
  entries := [("a_icall.json".toList, .file "\x7b\"0x1\": [\"0x2\"]\x7d".toList),
    ("b_icall.json".toList, .file "\x7b\x7d".toList)]
  distinct := by
    refine ⟨?_, trivial, trivial, trivial⟩
    decide

/-- The second of them alone. -/
def earlierRun : Directory where
  entries := [("b_icall.json".toList, .file "\x7b\x7d".toList)]
  distinct := ⟨List.nodup_singleton _, trivial, trivial⟩

/-- A run with a new call. -/
def laterRun : Directory where
  entries := [("b_icall.json".toList, .file "\x7b\"0x1\": [\"0x3\"]\x7d".toList)]
  distinct := ⟨List.nodup_singleton _, trivial, trivial⟩

/-- The same run and another one. -/
def laterRuns : Directory where
  entries := [("b_icall.json".toList, .file "\x7b\"0x1\": [\"0x3\"]\x7d".toList),
    ("c_icall.json".toList, .file "\x7b\"0x1\": [\"0x2\"]\x7d".toList)]
  distinct := by
    refine ⟨?_, trivial, trivial, trivial⟩
    decide

theorem readings_earlierRuns : earlierRuns.readings =
    [(["a_icall.json".toList], some "\x7b\"0x1\": [\"0x2\"]\x7d".toList),
      (["b_icall.json".toList], some "\x7b\x7d".toList)] := by decide

theorem readings_earlierRun : earlierRun.readings =
    [(["b_icall.json".toList], some "\x7b\x7d".toList)] := by decide

theorem readings_laterRun : laterRun.readings =
    [(["b_icall.json".toList], some "\x7b\"0x1\": [\"0x3\"]\x7d".toList)] := by decide

theorem readings_laterRuns : laterRuns.readings =
    [(["b_icall.json".toList], some "\x7b\"0x1\": [\"0x3\"]\x7d".toList),
      (["c_icall.json".toList], some "\x7b\"0x1\": [\"0x2\"]\x7d".toList)] := by decide

theorem decodeJson_empty : decodeJson "\x7b\x7d".toList = some (.obj []) := rfl

/-- A document with one site and one target. -/
theorem decodeJson_call (target : Char) (htarget : target = '2' ∨ target = '3') :
    decodeJson ("\x7b\"0x1\": [\"0x".toList ++ target :: "\"]\x7d".toList) =
      some (.obj [(pyStr "0x1".toList, .arr [.str (pyStr ['0', 'x', target])])]) := by
  rcases htarget with rfl | rfl <;> rfl

theorem loadable_empty : Loadable asciiPython "\x7b\x7d".toList := by
  apply loadable_of_object decodeJson_empty
  · intro lexeme hlexeme
    cases hlexeme
  · decide
  · intro item hitem
    cases hitem

theorem loadable_call (target : Char) (htarget : target = '2' ∨ target = '3') :
    Loadable asciiPython ("\x7b\"0x1\": [\"0x".toList ++ target :: "\"]\x7d".toList) := by
  apply loadable_of_object (decodeJson_call target htarget)
  · intro lexeme hlexeme
    cases hlexeme
  · exact Nat.le_of_ble_eq_true rfl
  · intro item hitem
    rw [List.mem_singleton.mp hitem]
    refine ⟨⟨1, rfl⟩, _, rfl, ?_⟩
    intro element helement
    rw [List.mem_singleton.mp helement]
    rcases htarget with rfl | rfl
    · exact ⟨2, rfl⟩
    · exact ⟨3, rfl⟩

theorem main_of_moreResults_listings :
    (main asciiPython ⟨("/old".toList, some (.directory earlierRun.entries)),
      ("/new".toList, some (.directory laterRuns.entries)), 1, none⟩
        (fun _ => none : Store (List Char) Unit)).ending.status = 0 := by
  have hempty := loadable_empty
  have hold := loadable_call '2' (Or.inl rfl)
  have hnew := loadable_call '3' (Or.inr rfl)
  have hfewer : earlierRun.readings ⊆ earlierRuns.readings := by
    rw [readings_earlierRun, readings_earlierRuns]
    exact List.subset_cons_self _ _
  have hmore : laterRun.readings ⊆ laterRuns.readings := by
    rw [readings_laterRun, readings_laterRuns]
    exact List.cons_subset_cons _ (List.nil_subset _)
  have haccepted : laterRuns.AllAccepted asciiPython := by
    unfold Directory.AllAccepted
    rw [readings_laterRuns]
    intro result hresult
    rcases List.mem_cons.mp hresult with rfl | hlast
    · exact ⟨_, rfl, hnew⟩
    · rw [List.mem_singleton.mp hlast]
      exact ⟨_, rfl, hold⟩
  have hbaseline : RootLoads asciiPython "/old".toList (some (.directory earlierRuns.entries)) := by
    rw [rootLoads_directory_iff, readings_earlierRuns]
    refine ⟨⟨_, List.mem_cons_self⟩, ?_⟩
    intro result hresult
    rcases List.mem_cons.mp hresult with rfl | hlast
    · exact ⟨_, rfl, hold⟩
    · rw [List.mem_singleton.mp hlast]
      exact ⟨_, rfl, hempty⟩
  have hcandidate : RootLoads asciiPython "/new".toList (some (.directory laterRun.entries)) := by
    rw [rootLoads_directory_iff, readings_laterRun]
    exact ⟨⟨_, List.mem_cons_self⟩, fun result hresult =>
      haccepted result (hmore (readings_laterRun ▸ hresult))⟩
  -- the call of the later run is none of the earlier ones
  have hpair : (("b_icall.json".toList, 1, 3) : Pair) ∈
      RootPairs asciiPython "/new".toList (some (.directory laterRun.entries)) \
        RootPairs asciiPython "/old".toList (some (.directory earlierRuns.entries)) := by
    refine ⟨?_, ?_⟩
    · rw [mem_rootPairs_directory_iff, readings_laterRun]
      have hholds : HoldsPair asciiPython "\x7b\"0x1\": [\"0x3\"]\x7d".toList 1 3 :=
        ⟨_, pyStr "0x1".toList, [.str (pyStr "0x3".toList)], .str (pyStr "0x3".toList),
          decodeJson_call '3' (Or.inr rfl), rfl, rfl, List.mem_cons_self, rfl⟩
      exact ⟨_, List.mem_cons_self, _, rfl, rfl, hholds⟩
    · rw [mem_rootPairs_directory_iff, readings_earlierRuns]
      rintro ⟨result, hresult, bytes, hbytes, hidentity, members, name, elements, element, hobject,
        hmember, _⟩
      rcases List.mem_cons.mp hresult with rfl | hlast
      · revert hidentity
        decide
      · rw [List.mem_singleton.mp hlast] at hbytes
        obtain rfl : "\x7b\x7d".toList = bytes := Option.some.inj hbytes
        rw [decodeJson_empty, Option.some.injEq, Json.obj.injEq] at hobject
        subst hobject
        cases hmember
  have henough : 1 ≤ (RootPairs asciiPython "/new".toList (some (.directory laterRun.entries)) \
      RootPairs asciiPython "/old".toList (some (.directory earlierRuns.entries))).ncard :=
    (Set.ncard_pos (finite_rootPairs hcandidate).sdiff).mpr ⟨_, hpair⟩
  refine main_of_moreResults asciiPython (fun _ => none) 1 none hfewer ?_ hmore haccepted ?_
  · rw [readings_earlierRun]
    exact List.cons_ne_nil _ _
  · refine (status_main_eq_zero_iff _ _ _).mpr ⟨⟨hbaseline, hcandidate⟩, ?_, henough⟩
    intro path hpath
    cases hpath

end Runs

end Icflow.Compare
