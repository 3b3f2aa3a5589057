import Icflow.Compare.Rejection
import Mathlib.Data.Finset.Sort

set_option autoImplicit false

/-!
# The comparison of two runs

`load_pairs` over a whole directory and `compare_pair_sets`.  The set that is loaded and the
rejection of a directory are described without the order in which its files are read; the
description is met exactly when no path that matches `*_icall.json` and cannot be read, or not
without a `RecursionError`, comes before all invalid files.  The counts of the comparison are those of the two sets.
-/

namespace Icflow.Compare

open Icflow.Foundation
open Icflow.Foundation.Json

/-! ## Directories -/

mutual

/-- Below every directory the names are distinct. -/
def Tree.Distinct : Tree → Prop
  | .directory entries => (entries.map Prod.fst).Nodup ∧ EntriesDistinct entries
  | .file _ | .special _ => True

/-- `Distinct` over the entries of a directory. -/
def EntriesDistinct : List (List Char × Tree) → Prop
  | [] => True
  | (_, tree) :: rest => tree.Distinct ∧ EntriesDistinct rest

end

/-- A directory of a file system. -/
structure Directory where
  entries : List (List Char × Tree)
  distinct : (Tree.directory entries).Distinct

theorem exists_name_of_mem {entries : List (List Char × Tree)} {below : List (List Char) × Tree}
    (h : below ∈ entryDescendants entries) :
    ∃ name ∈ entries.map Prod.fst, ∃ rest, below.1 = name :: rest := by
  induction entries with
  | nil => cases h
  | cons entry entries ih =>
      obtain ⟨name, tree⟩ := entry
      rw [entryDescendants, List.cons_append, List.mem_cons, List.mem_append] at h
      rcases h with rfl | hbelow | hrest
      · exact ⟨name, List.mem_cons_self, [], rfl⟩
      · obtain ⟨inner, _, rfl⟩ := List.mem_map.mp hbelow
        exact ⟨name, List.mem_cons_self, inner.1, rfl⟩
      · obtain ⟨other, hother, rest, heq⟩ := ih hrest
        exact ⟨other, List.mem_cons_of_mem name hother, rest, heq⟩

mutual

theorem Tree.nodup_descendants : ∀ tree : Tree, tree.Distinct → (tree.descendants.map Prod.fst).Nodup
  | .directory entries, h => nodup_entryDescendants entries h.1 h.2
  | .file _, _ => List.nodup_nil
  | .special _, _ => List.nodup_nil

/-- No path occurs twice. -/
theorem nodup_entryDescendants : ∀ entries : List (List Char × Tree),
    (entries.map Prod.fst).Nodup → EntriesDistinct entries →
      ((entryDescendants entries).map Prod.fst).Nodup
  | [], _, _ => List.nodup_nil
  | (name, tree) :: rest, hnames, hdistinct => by
      have hinner := Tree.nodup_descendants tree hdistinct.1
      have hrest := nodup_entryDescendants rest (List.nodup_cons.mp hnames).2 hdistinct.2
      have hfresh := (List.nodup_cons.mp hnames).1
      rw [entryDescendants, List.cons_append, List.map_cons, List.map_append, List.map_map,
        List.nodup_cons, List.nodup_append]
      have hcons : Prod.fst ∘ (fun below : List (List Char) × Tree => (name :: below.1, below.2)) =
          (fun parts => name :: parts) ∘ Prod.fst := rfl
      rw [hcons, ← List.map_map]
      refine ⟨?_, hinner.map (List.cons_injective), hrest, ?_⟩
      · rw [List.mem_append, not_or]
        constructor
        · intro hmem
          obtain ⟨parts, hparts, heq⟩ := List.mem_map.mp hmem
          obtain ⟨below, hbelow, rfl⟩ := List.mem_map.mp hparts
          cases tree with
          | directory inner =>
              obtain ⟨other, _, tail, htail⟩ := exists_name_of_mem hbelow
              rw [htail] at heq
              cases heq
          | file bytes => cases hbelow
          | special read => cases hbelow
        · intro hmem
          obtain ⟨below, hbelow, heq⟩ := List.mem_map.mp hmem
          obtain ⟨other, hother, tail, htail⟩ := exists_name_of_mem hbelow
          rw [htail, List.cons.injEq] at heq
          exact hfresh (heq.1 ▸ hother)
      · rintro first hfirst second hsecond rfl
        obtain ⟨parts, _, rfl⟩ := List.mem_map.mp hfirst
        obtain ⟨below, hbelow, heq⟩ := List.mem_map.mp hsecond
        obtain ⟨other, hother, tail, htail⟩ := exists_name_of_mem hbelow
        rw [htail, List.cons.injEq] at heq
        exact hfresh (heq.1 ▸ hother)

end

namespace Directory

/-- Everything below the directory whose name matches `*_icall.json`. -/
def candidates (directory : Directory) : List (List (List Char) × Tree) :=
  (entryDescendants directory.entries).filter fun below => matchesIcall below.1

/-- A file below the directory whose name matches, with its bytes. -/
def ResultFile (directory : Directory) (parts : List (List Char)) (bytes : List Char) : Prop :=
  ∃ tree, (parts, tree) ∈ directory.candidates ∧ readBytes tree = some bytes

/-- The triples that the result files hold. -/
def HasPair (python : Interpreter) (directory : Directory) (pair : Pair) : Prop :=
  ∃ parts bytes, directory.ResultFile parts bytes ∧ asPosix parts = pair.1 ∧
    HoldsPair python bytes pair.2.1 pair.2.2

/-- There is no result file, or one that is rejected. -/
def Invalid (python : Interpreter) (directory : Directory) : Prop :=
  (¬ ∃ parts bytes, directory.ResultFile parts bytes) ∨
    ∃ parts bytes, directory.ResultFile parts bytes ∧ Rejected python bytes

/-- In path order an invalid file comes before everything that matches and cannot be read. -/
def Covered (python : Interpreter) (directory : Directory) : Prop :=
  ∀ below ∈ directory.candidates, Unreadable python below.2 →
    ∃ parts bytes, directory.ResultFile parts bytes ∧ Rejected python bytes ∧
      ¬ TooDeep python bytes ∧ compare parts below.1 = .lt

end Directory

/-! ## The outer loop -/

section OuterLoop

variable (python : Interpreter) (resolved : List Char)

/-- A path with its identity, as `discover_icall_files` returns it. -/
def located (below : List (List Char) × Tree) : List Char × List Char × Tree :=
  (asPosix below.1, resolved ++ '/' :: asPosix below.1, below.2)

/-- A result file that can be loaded. -/
def Accepted (tree : Tree) : Prop := ∃ bytes, readBytes tree = some bytes ∧ Loadable python bytes

/-- What one path contributes. -/
def PathPair (below : List (List Char) × Tree) (pair : Pair) : Prop :=
  ∃ bytes, readBytes below.2 = some bytes ∧ pair.1 = asPosix below.1 ∧
    HoldsPair python bytes pair.2.1 pair.2.2

/-- The outer loop reads accepted files until the first path that is not one of them. -/
theorem addFiles_cases (paths : List (List (List Char) × Tree)) (pairs : Finset Pair) :
    ((∀ below ∈ paths, Accepted python below.2) ∧
        ∃ result, addFiles python (paths.map (located resolved)) pairs = .ok result ∧
          ∀ pair, pair ∈ result ↔ pair ∈ pairs ∨ ∃ below ∈ paths, PathPair python below pair) ∨
      ∃ before below after fault, paths = before ++ below :: after ∧
        (∀ earlier ∈ before, Accepted python earlier.2) ∧
        addFiles python (paths.map (located resolved)) pairs = .error fault ∧
        (Unreadable python below.2 ∧ ¬ IsValueError fault ∨
          ∃ bytes, readBytes below.2 = some bytes ∧ Rejected python bytes ∧
            ¬ TooDeep python bytes ∧ IsValueError fault) := by
  induction paths generalizing pairs with
  | nil =>
      refine Or.inl ⟨List.forall_mem_nil _, pairs, rfl, ?_⟩
      simp
  | cons below paths ih =>
      have hhere {fault : PairsFault}
          (hrun : addFile python (asPosix below.1) (resolved ++ '/' :: asPosix below.1) below.2
            pairs = .error fault) :
          addFiles python ((below :: paths).map (located resolved)) pairs = .error fault := by
        rw [List.map_cons, located, addFiles, hrun]
      by_cases hunreadable : Unreadable python below.2
      · obtain ⟨fault, hrun, hfault⟩ := addFile_of_unreadable python (asPosix below.1)
          (resolved ++ '/' :: asPosix below.1) hunreadable pairs
        exact Or.inr ⟨[], below, paths, fault, rfl, List.forall_mem_nil _, hhere hrun,
          Or.inl ⟨hunreadable, hfault⟩⟩
      · unfold Unreadable at hunreadable
        push Not at hunreadable
        obtain ⟨bytes, hread, hshallow⟩ := hunreadable
        rcases addFile_collects python (asPosix below.1) (resolved ++ '/' :: asPosix below.1)
          hread hshallow pairs with
          ⟨haccepted, next, hrun, hnext⟩ | ⟨hrejected, fault, hrun, hfault⟩
        · have hlater : addFiles python ((below :: paths).map (located resolved)) pairs =
              addFiles python (paths.map (located resolved)) next := by
            rw [List.map_cons, located, addFiles, hrun]
          have hbelow : Accepted python below.2 := ⟨bytes, hread, haccepted, hshallow⟩
          rw [hlater]
          rcases ih next with ⟨hall, result, heq, hmem⟩ |
            ⟨before, other, after, fault, hsplit, hbefore, heq, hcause⟩
          · refine Or.inl ⟨List.forall_mem_cons.mpr ⟨hbelow, hall⟩, result, heq, ?_⟩
            intro pair
            have hpair : PathPair python below pair ↔
                pair.1 = asPosix below.1 ∧ HoldsPair python bytes pair.2.1 pair.2.2 := by
              simp [PathPair, hread]
            rw [hmem, hnext, List.exists_mem_cons_iff, hpair, or_assoc]
          · refine Or.inr ⟨below :: before, other, after, fault, ?_, ?_, heq, hcause⟩
            · rw [hsplit, List.cons_append]
            · exact List.forall_mem_cons.mpr ⟨hbelow, hbefore⟩
        · exact Or.inr ⟨[], below, paths, fault, rfl, List.forall_mem_nil _, hhere hrun,
            Or.inr ⟨bytes, hread, not_not.mp hrejected, hshallow, hfault⟩⟩

end OuterLoop

/-! ## Path order -/

/-- Of two values one is not after the other. -/
theorem isLE_or_isLE {α : Type} (cmp : α → α → Ordering) [Std.OrientedCmp cmp] (a b : α) :
    (cmp a b).isLE ∨ (cmp b a).isLE := by
  have hswap : cmp b a = (cmp a b).swap := Std.OrientedCmp.eq_swap
  rw [hswap]
  cases cmp a b with
  | lt => exact Or.inl rfl
  | eq => exact Or.inl rfl
  | gt => exact Or.inr rfl

namespace Directory

/-- The candidates in the order in which they are read. -/
def sortedCandidates (directory : Directory) : List (List (List Char) × Tree) :=
  directory.candidates.mergeSort fun a b => (compare a.1 b.1).isLE

variable {directory : Directory}

theorem mem_sortedCandidates {below : List (List Char) × Tree} :
    below ∈ directory.sortedCandidates ↔ below ∈ directory.candidates := List.mem_mergeSort

/-- The candidates are read in strictly ascending order of their paths. -/
theorem pairwise_sortedCandidates (directory : Directory) :
    directory.sortedCandidates.Pairwise fun a b => compare a.1 b.1 = .lt := by
  have hsorted : directory.sortedCandidates.Pairwise fun a b => (compare a.1 b.1).isLE := by
    apply List.pairwise_mergeSort
    · intro a b c hab hbc
      exact Std.TransCmp.isLE_trans hab hbc
    · intro a b
      rw [Bool.or_eq_true]
      exact isLE_or_isLE compare a.1 b.1
  have hnodup : (directory.sortedCandidates.map Prod.fst).Nodup := by
    have hall := nodup_entryDescendants directory.entries directory.distinct.1 directory.distinct.2
    have hfilter : (directory.candidates.map Prod.fst).Nodup :=
      hall.sublist (List.filter_sublist.map Prod.fst)
    exact ((List.mergeSort_perm _ _).map Prod.fst).nodup_iff.mpr hfilter
  rw [List.Nodup, List.pairwise_map] at hnodup
  refine (hsorted.and hnodup).imp ?_
  rintro a b ⟨hle, hne⟩
  rcases Ordering.isLE_iff_eq_lt_or_eq_eq.mp hle with hlt | heq
  · exact hlt
  · exact absurd (Std.LawfulEqCmp.eq_of_compare heq) hne

end Directory

/-! ## The whole of `load_pairs` -/

section Load

variable (python : Interpreter) (resolved : List Char) (directory : Directory)

/-- `load_pairs` on a directory. -/
def loadDirectory : Except PairsFault (Finset Pair × List (List Char)) :=
  loadPairs python resolved (some (.directory directory.entries))

theorem loadDirectory_of_nil (h : directory.sortedCandidates = []) :
    loadDirectory python resolved directory = .error (.noFiles resolved) := by
  have hfiles : ((entryDescendants directory.entries).filter fun below =>
      matchesIcall below.1).mergeSort (fun a b => (compare a.1 b.1).isLE) = [] := h
  unfold loadDirectory loadPairs discoverIcallFiles
  simp only [hfiles]

theorem loadDirectory_of_ne_nil (h : directory.sortedCandidates ≠ []) :
    loadDirectory python resolved directory =
      match addFiles python (directory.sortedCandidates.map (located resolved)) ∅ with
      | .error fault => .error fault
      | .ok pairs => .ok (pairs, directory.sortedCandidates.map fun below => asPosix below.1) := by
  have hfiles : ((entryDescendants directory.entries).filter fun below =>
      matchesIcall below.1).mergeSort (fun a b => (compare a.1 b.1).isLE) =
        directory.sortedCandidates := rfl
  have hidentities : (directory.sortedCandidates.map (located resolved)).map Prod.fst =
      directory.sortedCandidates.map fun below => asPosix below.1 := by
    rw [List.map_map]
    rfl
  unfold loadDirectory loadPairs discoverIcallFiles
  simp only [hfiles]
  cases hsorted : directory.sortedCandidates with
  | nil => exact absurd hsorted h
  | cons first rest =>
      rw [hsorted] at hidentities
      rw [← hidentities]
      rfl

/-- The result is a `ValueError`. -/
def RaisesValueError : Prop :=
  ∃ fault, loadDirectory python resolved directory = .error fault ∧ IsValueError fault

/-- What `load_pairs` promises of one directory: it raises `ValueError` on the invalid ones
alone, and of any other it returns the triples of its files. -/
structure LoadsExactly : Prop where
  raises : RaisesValueError python resolved directory ↔ directory.Invalid python
  returns : ¬ directory.Invalid python → ∃ pairs identities,
    loadDirectory python resolved directory = .ok (pairs, identities) ∧
      ∀ pair, pair ∈ pairs ↔ directory.HasPair python pair

variable {python resolved directory}

theorem resultFile_of_mem_sortedCandidates {below : List (List Char) × Tree} {bytes : List Char}
    (hmem : below ∈ directory.sortedCandidates) (hread : readBytes below.2 = some bytes) :
    directory.ResultFile below.1 bytes :=
  ⟨below.2, Directory.mem_sortedCandidates.mp hmem, hread⟩

/-- Accepted files only. -/
theorem loadsExactly_of_accepted (hne : directory.sortedCandidates ≠ [])
    (hall : ∀ below ∈ directory.sortedCandidates, Accepted python below.2) {pairs : Finset Pair}
    (hrun : addFiles python (directory.sortedCandidates.map (located resolved)) ∅ = .ok pairs)
    (hpairs : ∀ pair, pair ∈ pairs ↔
      pair ∈ (∅ : Finset Pair) ∨ ∃ below ∈ directory.sortedCandidates, PathPair python below pair) :
    LoadsExactly python resolved directory := by
  have hload := loadDirectory_of_ne_nil python resolved directory hne
  rw [hrun] at hload
  have hvalid : ¬ directory.Invalid python := by
    rintro (hnone | ⟨parts, bytes, ⟨tree, hmem, hread⟩, hrejected⟩)
    · obtain ⟨below, hmem⟩ := List.exists_mem_of_ne_nil _ hne
      obtain ⟨bytes, hread, _⟩ := hall below hmem
      exact hnone ⟨below.1, bytes, resultFile_of_mem_sortedCandidates hmem hread⟩
    · obtain ⟨other, hother, haccepted⟩ := hall _ (Directory.mem_sortedCandidates.mpr hmem)
      rw [hread, Option.some.injEq] at hother
      exact haccepted.accepted (hother ▸ hrejected)
  refine ⟨iff_of_false ?_ hvalid, fun _ => ⟨pairs, _, hload, ?_⟩⟩
  · rintro ⟨fault, hfault, _⟩
    rw [hload] at hfault
    cases hfault
  · intro pair
    rw [hpairs, or_iff_right (Finset.notMem_empty pair)]
    constructor
    · rintro ⟨below, hmem, bytes, hread, hidentity, hholds⟩
      exact ⟨below.1, bytes, resultFile_of_mem_sortedCandidates hmem hread, hidentity.symm, hholds⟩
    · rintro ⟨parts, bytes, ⟨tree, hmem, hread⟩, hidentity, hholds⟩
      exact ⟨(parts, tree), Directory.mem_sortedCandidates.mpr hmem, bytes, hread, hidentity.symm,
        hholds⟩

/-- A `ValueError` on an invalid directory. -/
theorem loadsExactly_of_raises {fault : PairsFault}
    (hrun : loadDirectory python resolved directory = .error fault) (hfault : IsValueError fault)
    (hinvalid : directory.Invalid python) : LoadsExactly python resolved directory where
  raises := iff_of_true ⟨fault, hrun, hfault⟩ hinvalid
  returns hvalid := absurd hinvalid hvalid

/-- Any other error is promised of no directory. -/
theorem not_loadsExactly_of_raises {fault : PairsFault}
    (hrun : loadDirectory python resolved directory = .error fault)
    (hfault : ¬ IsValueError fault) : ¬ LoadsExactly python resolved directory := by
  intro h
  by_cases hinvalid : directory.Invalid python
  · obtain ⟨other, hother, hvalue⟩ := h.raises.mpr hinvalid
    rw [hrun, Except.error.injEq] at hother
    exact hfault (hother ▸ hvalue)
  · obtain ⟨pairs, identities, hok, _⟩ := h.returns hinvalid
    rw [hrun] at hok
    cases hok

/-- The loop is as promised unless it comes upon something it cannot read. -/
theorem loadsExactly_iff_covered :
    LoadsExactly python resolved directory ↔ directory.Covered python := by
  by_cases hne : directory.sortedCandidates = []
  · have hempty : ∀ below, below ∉ directory.candidates := by
      intro below hmem
      have hsorted := Directory.mem_sortedCandidates.mpr hmem
      rw [hne] at hsorted
      cases hsorted
    have hinvalid : directory.Invalid python := by
      refine Or.inl ?_
      rintro ⟨parts, bytes, tree, hmem, _⟩
      exact hempty _ hmem
    apply iff_of_true
    · exact loadsExactly_of_raises (loadDirectory_of_nil python resolved directory hne) rfl hinvalid
    · intro below hmem
      exact absurd hmem (hempty below)
  · have hload := loadDirectory_of_ne_nil python resolved directory hne
    have hsorted := directory.pairwise_sortedCandidates
    rcases addFiles_cases python resolved directory.sortedCandidates ∅ with
      ⟨hall, pairs, hrun, hpairs⟩ | ⟨before, below, after, fault, hsplit, hbefore, hrun, hcause⟩
    · apply iff_of_true (loadsExactly_of_accepted hne hall hrun hpairs)
      intro below hmem hunreadable
      obtain ⟨bytes, hbytes, haccepted⟩ := hall below (Directory.mem_sortedCandidates.mpr hmem)
      exact absurd (hunreadable bytes hbytes) haccepted.shallow
    · rw [hrun] at hload
      have hbelow : below ∈ directory.sortedCandidates := by
        rw [hsplit]
        exact List.mem_append_right before List.mem_cons_self
      rw [hsplit, List.pairwise_append, List.pairwise_cons] at hsorted
      rcases hcause with ⟨hunreadable, hfault⟩ | ⟨bytes, hread, hrejected, hshallow, hfault⟩
      · -- nothing that is read before the unreadable path is invalid
        apply iff_of_false (not_loadsExactly_of_raises hload hfault)
        intro hcovered
        obtain ⟨parts, bytes, ⟨tree, hmem, hbytes⟩, hrejected, hshallow, hlt⟩ :=
          hcovered below (Directory.mem_sortedCandidates.mp hbelow) hunreadable
        have hearlier := Directory.mem_sortedCandidates.mpr hmem
        rw [hsplit, List.mem_append, List.mem_cons] at hearlier
        rcases hearlier with hearlier | rfl | hlater
        · obtain ⟨other, hother, haccepted⟩ := hbefore _ hearlier
          rw [hbytes, Option.some.injEq] at hother
          exact haccepted.accepted (hother ▸ hrejected)
        · exact hshallow (hunreadable bytes hbytes)
        · have hgt := Std.OrientedCmp.gt_of_lt (hsorted.2.1.1 _ hlater)
          rw [hlt] at hgt
          cases hgt
      · have hfile := resultFile_of_mem_sortedCandidates hbelow hread
        have hinvalid : directory.Invalid python := Or.inr ⟨below.1, bytes, hfile, hrejected⟩
        apply iff_of_true (loadsExactly_of_raises hload hfault hinvalid)
        intro other hmem hunreadable
        have hother := Directory.mem_sortedCandidates.mpr hmem
        rw [hsplit, List.mem_append, List.mem_cons] at hother
        rcases hother with hearlier | rfl | hlater
        · obtain ⟨inner, hinner, haccepted⟩ := hbefore _ hearlier
          exact absurd (hunreadable inner hinner) haccepted.shallow
        · exact absurd (hunreadable bytes hread) hshallow
        · exact ⟨below.1, bytes, hfile, hrejected, hshallow, hsorted.2.1.1 _ hlater⟩

end Load

/-! ## `compare_pair_sets` -/

/-- One entry of `new_pair_examples`. -/
structure PairExample where
  binary : List Char
  callSite : List Char
  target : List Char
  deriving DecidableEq, Repr

/-- What `compare_pair_sets` returns. -/
structure PairSummary where
  baselinePairCount : Nat
  candidatePairCount : Nat
  newPairCount : Nat
  unionPairCount : Nat
  baselinePairsNotReplayed : Nat
  newPairExamples : List PairExample
  deriving DecidableEq, Repr

/-- `f"0x{value:x}"` -/
def formatAddress : Int → List Char
  | .ofNat value => "0x".toList ++ Nat.toDigits 16 value
  | .negSucc value => "0x-".toList ++ Nat.toDigits 16 (value + 1)

/-- The order of tuples. -/
def comparePairs : Pair → Pair → Ordering :=
  compareLex (compareOn Prod.fst)
    (compareLex (compareOn fun pair => pair.2.1) (compareOn fun pair => pair.2.2))

def PairLE (first second : Pair) : Prop := (comparePairs first second).isLE

instance : Std.TransCmp comparePairs :=
  inferInstanceAs (Std.TransCmp (compareLex _ _))

theorem eq_of_comparePairs {first second : Pair} (h : comparePairs first second = .eq) :
    first = second := by
  simp only [comparePairs, compareLex, compareOn, Ordering.then_eq_eq,
    Std.LawfulEqCmp.compare_eq_iff_eq] at h
  exact Prod.ext h.1 (Prod.ext h.2.1 h.2.2)

instance : DecidableRel PairLE := fun first second =>
  inferInstanceAs (Decidable ((comparePairs first second).isLE = true))

instance : IsTrans Pair PairLE where
  trans _ _ _ := Std.TransCmp.isLE_trans

instance : Std.Antisymm PairLE where
  antisymm first second hle hge := by
    unfold PairLE at hle hge
    have hswap : comparePairs second first = (comparePairs first second).swap :=
      Std.OrientedCmp.eq_swap
    rw [hswap] at hge
    exact eq_of_comparePairs (Ordering.eq_eq_of_isLE_of_isLE_swap hle hge)

instance : Std.Total PairLE where
  total := isLE_or_isLE comparePairs

/-- `compare_pair_sets` -/
def comparePairSets (baseline candidate : Finset Pair) : PairSummary where
  baselinePairCount := baseline.card
  candidatePairCount := candidate.card
  newPairCount := (candidate \ baseline).card
  unionPairCount := (baseline ∪ candidate).card
  baselinePairsNotReplayed := (baseline \ candidate).card
  newPairExamples := (((candidate \ baseline).sort PairLE).take 20).map fun pair =>
    ⟨pair.1, formatAddress pair.2.1, formatAddress pair.2.2⟩

/-- The laws of the counts that are reported for two sets of pairs. -/
structure CountsExact (baseline candidate : Finset Pair) : Prop where
  union : (comparePairSets baseline candidate).unionPairCount =
    baseline.card + (comparePairSets baseline candidate).newPairCount
  candidate_card : (candidate.card : Int) =
    baseline.card + (comparePairSets baseline candidate).newPairCount -
      (comparePairSets baseline candidate).baselinePairsNotReplayed
  new_eq_zero : (comparePairSets baseline candidate).newPairCount = 0 ↔ candidate ⊆ baseline
  swap_new : (comparePairSets candidate baseline).newPairCount =
    (comparePairSets baseline candidate).baselinePairsNotReplayed
  swap_not_replayed : (comparePairSets candidate baseline).baselinePairsNotReplayed =
    (comparePairSets baseline candidate).newPairCount

theorem countsExact (baseline candidate : Finset Pair) : CountsExact baseline candidate where
  union := by
    simp only [comparePairSets]
    rw [Finset.union_comm, ← Finset.card_sdiff_add_card, Nat.add_comm]
  candidate_card := by
    have hcandidate := Finset.card_sdiff_add_card_inter candidate baseline
    have hbaseline := Finset.card_sdiff_add_card_inter baseline candidate
    rw [Finset.inter_comm] at hbaseline
    simp only [comparePairSets]
    omega
  new_eq_zero := by
    simp only [comparePairSets]
    rw [Finset.card_eq_zero, Finset.sdiff_eq_empty_iff_subset]
  swap_new := rfl
  swap_not_replayed := rfl

/-- The examples are new pairs, as many as there are up to twenty. -/
theorem newPairExamples_comparePairSets (baseline candidate : Finset Pair) :
    (comparePairSets baseline candidate).newPairExamples.length =
        min 20 (comparePairSets baseline candidate).newPairCount ∧
      ∀ shown ∈ (comparePairSets baseline candidate).newPairExamples,
        ∃ pair ∈ candidate, pair ∉ baseline ∧
          shown = ⟨pair.1, formatAddress pair.2.1, formatAddress pair.2.2⟩ := by
  constructor
  · simp only [comparePairSets, List.length_map, List.length_take, Finset.length_sort]
  · intro shown hshown
    obtain ⟨pair, hpair, rfl⟩ := List.mem_map.mp hshown
    have hnew := (Finset.mem_sort PairLE).mp (List.mem_of_mem_take hpair)
    rw [Finset.mem_sdiff] at hnew
    exact ⟨pair, hnew.1, hnew.2, rfl⟩

/-! ## The comparison of two directories -/

/-- What the comparison promises of a baseline and a candidate directory. -/
structure ComparisonExact (python : Interpreter) (baselineRoot candidateRoot : List Char)
    (baseline candidate : Directory) : Prop where
  loads_baseline : LoadsExactly python baselineRoot baseline
  loads_candidate : LoadsExactly python candidateRoot candidate
  counts : ∀ baselinePairs candidatePairs baselineFiles candidateFiles,
    loadDirectory python baselineRoot baseline = .ok (baselinePairs, baselineFiles) →
      loadDirectory python candidateRoot candidate = .ok (candidatePairs, candidateFiles) →
        CountsExact baselinePairs candidatePairs

/-- The comparison is exact when, in both directories, an invalid file is read before
anything that matches and cannot be read, and only then. -/
theorem comparisonExact_iff (python : Interpreter) (baselineRoot candidateRoot : List Char)
    (baseline candidate : Directory) :
    ComparisonExact python baselineRoot candidateRoot baseline candidate ↔
      baseline.Covered python ∧ candidate.Covered python := by
  constructor
  · intro h
    exact ⟨loadsExactly_iff_covered.mp h.loads_baseline,
      loadsExactly_iff_covered.mp h.loads_candidate⟩
  · rintro ⟨hbaseline, hcandidate⟩
    refine ⟨loadsExactly_iff_covered.mpr hbaseline, loadsExactly_iff_covered.mpr hcandidate, ?_⟩
    intro baselinePairs candidatePairs _ _ _ _
    exact countsExact baselinePairs candidatePairs

/-- A directory whose only entry is a directory with the name of a result file. -/
def nestedDirectory : Directory where
  entries := [("a_icall.json".toList, .directory [])]
  distinct := ⟨List.nodup_singleton _, ⟨List.nodup_nil, trivial⟩, trivial⟩

/-- It has no result file, but reading it raises an `IsADirectoryError`. -/
theorem not_comparisonExact_nestedDirectory :
    ¬ ComparisonExact asciiPython "/b".toList "/c".toList nestedDirectory nestedDirectory := by
  intro h
  have hcandidates : nestedDirectory.sortedCandidates =
      [(["a_icall.json".toList], .directory [])] := by
    unfold Directory.sortedCandidates
    apply List.mergeSort_singleton
  have hload := loadDirectory_of_ne_nil asciiPython "/b".toList nestedDirectory
    (hcandidates ▸ List.cons_ne_nil _ _)
  rw [hcandidates] at hload
  exact not_loadsExactly_of_raises hload Bool.false_ne_true h.loads_baseline

end Icflow.Compare
