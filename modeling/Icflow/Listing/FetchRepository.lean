import Icflow.Foundation.PageLoop
import Icflow.Foundation.SortUnique
import Icflow.Listing.Response

set_option autoImplicit false

/-!
# `fetch_repository`

The loop appends what it takes from each page to a temporary file; with errexit in force
every command that fails ends the script.  The two files of the repository are replaced
after the loop, both at the end.  `$page` counts the requests and does not overflow.
-/

namespace Icflow.Listing

open Icflow.Foundation

/-- The published files of a repository, if there are any. -/
structure Files where
  /-- `packages.txt` -/
  packages : Option Text
  /-- `clone_urls.txt` -/
  cloneUrls : Option Text

/-- How far a call has come. -/
inductive Status where
  | requesting
  | failed
  | succeeded
  deriving DecidableEq

/-- One turn of the loop, with the text in `$packages_temp`. -/
def visitPage (replies : Nat → Reply) (page : Nat) (packagesTemp : Text) :
    PageLoop.Verdict Text :=
  match replies page with
  | .failed => .abort
  | .unexpected => .abort
  | .received records count total =>
      if ¬ (records.succeeds && count.succeeds && total.succeeds) then .abort
      else
        let packagesTemp := packagesTemp ++ records.text
        let pageCount := substituted count.text
        let pageTotal := substituted total.text
        if shellNumber pageCount = some 0 then .stop packagesTemp
        else if isNumeral pageTotal && (shellNumber pageTotal).any (· ≤ page) then
          .stop packagesTemp
        else if pageTotal = [] && (shellNumber pageCount).any (· < 250) then .stop packagesTemp
        else .again packagesTemp

/-- `$2` with commas between the fields. -/
def secondField (line : Text) : Text := ((line.dropWhile (· != ',')).drop 1).takeWhile (· != ',')

/-- The URL that `awk` prints for a line. -/
def cloneUrl (base : Text) : Text :=
  "https://gitlab.archlinux.org/archlinux/packaging/packages/".toList ++ base ++ ".git".toList

/-- What follows the loop; lines are sorted by the order of the locale. -/
def publish (order : TotalOrder Text) (packagesTemp : Text) (files : Files) : Files × Status :=
  let packages := unlines (sortUnique order (pieces packagesTemp))
  let urls := (pieces packages).map fun line => cloneUrl (secondField line)
  let cloneUrls := unlines (sortUnique order urls)
  if packages = [] ∨ cloneUrls = [] then (files, .failed)
  else ({ packages := some packages, cloneUrls := some cloneUrls }, .succeeded)

/-- `fetch_repository` after at most the given number of requests. -/
def fetchRepository (order : TotalOrder Text) (replies : Nat → Reply) (requests : Nat)
    (files : Files) : Files × Status :=
  match PageLoop.run (visitPage replies) requests 1 [] with
  | none => (files, .requesting)
  | some .aborted => (files, .failed)
  | some (.complete packagesTemp) => publish order packagesTemp files

/-- The page is requested in the course of the loop. -/
def Requested (replies : Nat → Reply) (page : Nat) : Prop :=
  ∃ packagesTemp, PageLoop.Reaches (visitPage replies) 1 [] page packagesTemp

/-- The request fails, or a command that reads the response. -/
def Fails : Reply → Prop
  | .failed => True
  | .unexpected => True
  | .received records count total =>
      records.succeeds = false ∨ count.succeeds = false ∨ total.succeeds = false

section Failure

variable {order : TotalOrder Text} {replies : Nat → Reply} {page : Nat}

theorem visitPage_of_fails (h : Fails (replies page)) (packagesTemp : Text) :
    visitPage replies page packagesTemp = .abort := by
  unfold visitPage
  cases hreply : replies page with
  | failed => rfl
  | unexpected => rfl
  | received records count total =>
      rw [hreply] at h
      apply if_pos
      rw [Bool.and_eq_true, Bool.and_eq_true]
      rintro ⟨⟨hrecords, hcount⟩, htotal⟩
      rcases h with h | h | h
      · rw [hrecords] at h
        cases h
      · rw [hcount] at h
        cases h
      · rw [htotal] at h
        cases h

/-- After a failure the published files are what they were, as they are all the time before. -/
theorem fetchRepository_of_fails (hrequested : Requested replies page)
    (hfails : Fails (replies page)) (requests : Nat) (files : Files) :
    fetchRepository order replies requests files =
      (files, if page ≤ requests then .failed else .requesting) := by
  obtain ⟨packagesTemp, hreach⟩ := hrequested
  have hfirst := hreach.le
  unfold fetchRepository
  rcases Nat.lt_or_ge requests page with hearly | hlate
  · rw [hreach.run_eq_none (by omega), if_neg (by omega)]
  · rw [hreach.run_of_abort (visitPage_of_fails hfails packagesTemp) (by omega), if_pos hlate]

end Failure

section Exits

/-- One of the three exits of the loop is taken after a page of so many records. -/
def Leaves (page count : Nat) (pageTotal : Text) : Prop :=
  count = 0 ∨ (isNumeral pageTotal = true ∧ (shellNumber pageTotal).any (· ≤ page) = true) ∨
    (pageTotal = [] ∧ count < 250)

instance (page count : Nat) (pageTotal : Text) : Decidable (Leaves page count pageTotal) :=
  inferInstanceAs (Decidable (_ ∨ _ ∧ _ ∨ _ ∧ _))

variable {replies : Nat → Reply} {page count : Nat} {records total : Text}

/-- A turn of the loop in which no command fails. -/
theorem visitPage_of_received (packagesTemp : Text)
    (hreply : replies page = .received { text := records, succeeds := true }
      { text := Nat.toDigits 10 count ++ ['\n'], succeeds := true }
      { text := total, succeeds := true }) :
    visitPage replies page packagesTemp =
      if Leaves page count (substituted total) then .stop (packagesTemp ++ records)
      else .again (packagesTemp ++ records) := by
  have hsucceed : ¬ ¬ (true && true && true) = true := not_not_intro rfl
  unfold visitPage
  rw [hreply]
  dsimp only
  rw [substituted_toDigits, shellNumber_toDigits, if_neg hsucceed, Option.any_some]
  split
  · rename_i hempty
    exact (if_pos (Or.inl (Option.some.inj hempty))).symm
  · rename_i hfilled
    split
    · rename_i hlast
      exact (if_pos (Or.inr (Or.inl (Bool.and_eq_true_iff.mp hlast)))).symm
    · rename_i hnotLast
      split
      · rename_i hshort
        rw [Bool.and_eq_true, decide_eq_true_eq, decide_eq_true_eq] at hshort
        exact (if_pos (Or.inr (Or.inr hshort))).symm
      · rename_i hfull
        rw [Bool.and_eq_true, decide_eq_true_eq, decide_eq_true_eq] at hfull
        apply (if_neg _).symm
        rintro (hempty | hlast | hshort)
        · exact hfilled (congrArg some hempty)
        · exact hnotLast (Bool.and_eq_true_iff.mpr hlast)
        · exact hfull hshort

end Exits

section Publish

variable {order : TotalOrder Text}

theorem secondField_of_notMem {name base : Text} (hname : ',' ∉ name) (hbase : ',' ∉ base) :
    secondField (name ++ ',' :: base) = base := by
  rw [secondField, List.dropWhile_append_of_pos (bne_of_notMem hname),
    List.dropWhile_cons_of_neg (by decide), List.drop_one, List.tail_cons,
    List.takeWhile_eq_self_iff.mpr (bne_of_notMem hbase)]

/-- The files that are made of the lines in `$packages_temp`. -/
theorem publish_unlines {entries : List Text} (hlines : ∀ line ∈ entries, '\n' ∉ line)
    (hne : entries ≠ []) (files : Files) :
    ∃ packages urls, publish order (unlines entries) files =
        ({ packages := some (unlines packages), cloneUrls := some (unlines urls) }, .succeeded) ∧
      IsListing order packages entries ∧
        IsListing order urls (entries.map fun line => cloneUrl (secondField line)) := by
  have hpackages := isListing_sortUnique order entries
  have hkept : ∀ line ∈ sortUnique order entries, '\n' ∉ line :=
    fun line hline => hlines line ((hpackages.mem line).mp hline)
  have hurls := isListing_sortUnique order
    ((sortUnique order entries).map fun line => cloneUrl (secondField line))
  have hpackagesNe := hpackages.ne_nil hne
  have hurlsNe := hurls.ne_nil (mt List.map_eq_nil_iff.mp hpackagesNe)
  refine ⟨_, _, ?_, hpackages, hurls.congr ?_⟩
  · unfold publish
    rw [pieces_unlines hlines]
    dsimp only
    rw [pieces_unlines hkept, if_neg (not_or_intro (unlines_ne_nil hpackagesNe)
      (unlines_ne_nil hurlsNe))]
  · intro url
    simp only [List.mem_map, hpackages.mem]

end Publish

end Icflow.Listing
