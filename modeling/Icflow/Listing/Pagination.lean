import Icflow.Listing.FetchRepository
import Mathlib.Data.List.Forall2

set_option autoImplicit false

/-!
# A package list served in pages

The API serves a list of records as consecutive pages and may say how many there are.  The
loop has three exits; for both ways of serving a list the right one is taken after the last
page, or after the empty page behind it, and the files hold what all the pages hold.
-/

namespace Icflow.Listing

open Icflow.Foundation

/-- The name of a package, in which neither commas nor newlines are allowed. -/
structure PackageName where
  text : Text
  comma : ',' ∉ text
  newline : '\n' ∉ text

/-- A package record; one without a base is its own base. -/
structure PackageRecord where
  pkgname : PackageName
  pkgbase : Option PackageName

def PackageRecord.base (record : PackageRecord) : PackageName :=
  record.pkgbase.getD record.pkgname

/-- `name,base`. -/
def PackageRecord.line (record : PackageRecord) : Text :=
  record.pkgname.text ++ ',' :: record.base.text

/-- The URL of the base. -/
def PackageRecord.url (record : PackageRecord) : Text := cloneUrl record.base.text

/-- Consecutive pages of a package list. -/
structure PackageList where
  pages : List (List PackageRecord)
  pages_ne_nil : pages ≠ []
  page_ne_nil : ∀ page ∈ pages, page ≠ []
  page_length_le : ∀ page ∈ pages, page.length ≤ 250

/-- The records of all pages. -/
def PackageList.records (list : PackageList) : List PackageRecord := list.pages.flatten

/-- The element of a page for a record; it may have other members. -/
structure Describes (element : Document) (record : PackageRecord) : Prop where
  pkgname : field "pkgname".toList element = some (.str record.pkgname.text)
  pkgbase : field "pkgbase".toList element =
    some ((record.pkgbase.map fun base => Json.str base.text).getD .null)

/-- The document is a page with these records. -/
def PageOf (response : Document) (page : List PackageRecord) : Prop :=
  ∃ results, field "results".toList response = some (.arr results) ∧
    List.Forall₂ Describes results page

/-- Every page says how many there are. -/
structure ServedWithTotal (render : Document → Text) (replies : Nat → Reply)
    (list : PackageList) : Prop where
  /-- `jq` prints the number of pages as a decimal numeral. -/
  numeral : render (.num (Nat.toDigits 10 list.pages.length)) = Nat.toDigits 10 list.pages.length
  served : ∀ k page, list.pages[k]? = some page → ∃ response,
    replies (k + 1) = document render response ∧ PageOf response page ∧
      field "num_pages".toList response = some (.num (Nat.toDigits 10 list.pages.length))

/-- No page says how many there are; all but the last are full, and the pages behind it are
empty. -/
structure ServedWithoutTotal (render : Document → Text) (replies : Nat → Reply)
    (list : PackageList) : Prop where
  full : ∀ k page, list.pages[k]? = some page → k + 1 < list.pages.length → page.length = 250
  served : ∀ k, ∃ response, replies (k + 1) = document render response ∧
    PageOf response (list.pages[k]?.getD []) ∧ field "num_pages".toList response = some .null

section Served

variable {render : Document → Text} {replies : Nat → Reply} {list : PackageList}
  {response : Document} {page : List PackageRecord}

/-! ## One page -/

theorem Describes.recordLine {element : Document} {record : PackageRecord}
    (h : Describes element record) : recordLine element = some (.str record.line) := by
  have hbase : alternative (field "pkgbase".toList element) (some (.str record.pkgname.text)) =
      some (.str record.base.text) := by
    rw [h.pkgbase, PackageRecord.base]
    cases record.pkgbase with
    | none => rfl
    | some base => rfl
  rw [Listing.recordLine, h.pkgname]
  dsimp only
  rw [hbase, add, PackageRecord.line]
  dsimp only
  rw [add, List.append_assoc, List.singleton_append]

theorem map_recordLine {results : List Document} (h : List.Forall₂ Describes results page) :
    results.map recordLine = (page.map fun record => Json.str record.line).map some := by
  induction h with
  | nil => rfl
  | cons hfirst _ ih => rw [List.map_cons, ih, hfirst.recordLine, List.map_cons, List.map_cons]

/-- The outputs for a page. -/
theorem PageOf.document_eq (h : PageOf response page) :
    document render response = .received
      { text := unlines (page.map PackageRecord.line), succeeds := true }
      { text := Nat.toDigits 10 page.length ++ ['\n'], succeeds := true }
      (totalOutput render response) := by
  obtain ⟨results, hresults, hdescribes⟩ := h
  have hprinted : (page.map fun record => Json.str record.line).map (printed render) =
      page.map PackageRecord.line := by
    rw [List.map_map]
    rfl
  rw [document, hresults]
  dsimp only
  rw [map_recordLine hdescribes, printLines_some, hprinted, hdescribes.length_eq]

variable {k : Nat} {packagesTemp : Text}

/-- A turn of the loop for a page that says how many pages there are. -/
theorem visitPage_of_total {total : Nat} (hreply : replies k = document render response)
    (hpage : PageOf response page) (hne : page ≠ [])
    (hnumeral : render (.num (Nat.toDigits 10 total)) = Nat.toDigits 10 total)
    (htotal : field "num_pages".toList response = some (.num (Nat.toDigits 10 total))) :
    visitPage replies k packagesTemp =
      if total ≤ k then .stop (packagesTemp ++ unlines (page.map PackageRecord.line))
      else .again (packagesTemp ++ unlines (page.map PackageRecord.line)) := by
  have hlength : page.length ≠ 0 := mt List.length_eq_zero_iff.mp hne
  have hdocument := hreply.trans hpage.document_eq
  rw [totalOutput_of_num htotal, hnumeral] at hdocument
  have hnil : Nat.toDigits 10 total ≠ [] := by
    apply List.ne_nil_of_length_pos
    exact Nat.length_toDigits_pos
  rw [visitPage_of_received packagesTemp hdocument]
  apply if_congr _ rfl rfl
  rw [Leaves, substituted_toDigits, shellNumber_toDigits, Option.any_some, decide_eq_true_eq,
    and_iff_right (isNumeral_toDigits total), or_iff_right hlength, or_iff_left fun h => hnil h.1]

/-- A turn of the loop for a page that does not. -/
theorem visitPage_of_no_total (hreply : replies k = document render response)
    (hpage : PageOf response page) (htotal : field "num_pages".toList response = some .null) :
    visitPage replies k packagesTemp =
      if page.length < 250 then .stop (packagesTemp ++ unlines (page.map PackageRecord.line))
      else .again (packagesTemp ++ unlines (page.map PackageRecord.line)) := by
  have hdocument := hreply.trans hpage.document_eq
  rw [totalOutput_of_null htotal] at hdocument
  rw [visitPage_of_received packagesTemp hdocument]
  apply if_congr _ rfl rfl
  rw [Leaves, substituted_nil]
  constructor
  · rintro (hempty | ⟨hnumeral, _⟩ | ⟨_, hshort⟩)
    · omega
    · cases hnumeral
    · exact hshort
  · intro hshort
    exact Or.inr (Or.inr ⟨rfl, hshort⟩)

/-! ## All pages -/

/-- What the first pages leave in `$packages_temp`. -/
def gathered (list : PackageList) (count : Nat) : Text :=
  unlines ((list.pages.take count).flatten.map PackageRecord.line)

theorem gathered_succ (hpage : list.pages[k]? = some page) :
    gathered list (k + 1) = gathered list k ++ unlines (page.map PackageRecord.line) := by
  rw [gathered, gathered, List.take_add_one, hpage, Option.toList_some, List.flatten_append,
    List.map_append, unlines_append, List.flatten_singleton]

theorem gathered_length (list : PackageList) :
    gathered list list.pages.length = unlines (list.records.map PackageRecord.line) := by
  rw [gathered, List.take_length, PackageList.records]

/-- When every page but the last leads to the next one, the last page is requested. -/
theorem reaches_of_again (hagain : ∀ k page, list.pages[k]? = some page →
      k + 1 < list.pages.length → ∀ packagesTemp, visitPage replies (k + 1) packagesTemp =
        .again (packagesTemp ++ unlines (page.map PackageRecord.line)))
    (hk : k < list.pages.length) :
    PageLoop.Reaches (visitPage replies) 1 [] (k + 1) (gathered list k) := by
  induction k with
  | zero => exact .first
  | succ k ih =>
      have hpage := List.getElem?_eq_getElem (Nat.lt_of_succ_lt hk)
      rw [gathered_succ hpage]
      exact (ih (Nat.lt_of_succ_lt hk)).again (hagain k _ hpage hk _)

theorem exists_last (list : PackageList) : ∃ k page, k + 1 = list.pages.length ∧
    list.pages[k]? = some page ∧ page ∈ list.pages := by
  have hpos := List.length_pos_iff.mpr list.pages_ne_nil
  have hlast : list.pages.length - 1 < list.pages.length := by omega
  exact ⟨list.pages.length - 1, _, by omega, List.getElem?_eq_getElem hlast,
    List.getElem_mem hlast⟩

/-- With the number of pages the loop ends after the last page. -/
theorem ServedWithTotal.run_eq (h : ServedWithTotal render replies list) {requests : Nat}
    (hrequests : list.pages.length ≤ requests) :
    PageLoop.run (visitPage replies) requests 1 [] =
      some (.complete (unlines (list.records.map PackageRecord.line))) := by
  have hvisit : ∀ k page, list.pages[k]? = some page → ∀ packagesTemp,
      visitPage replies (k + 1) packagesTemp =
        if list.pages.length ≤ k + 1 then
          .stop (packagesTemp ++ unlines (page.map PackageRecord.line))
        else .again (packagesTemp ++ unlines (page.map PackageRecord.line)) := by
    intro k page hpage packagesTemp
    obtain ⟨response, hreply, hresponse, htotal⟩ := h.served k page hpage
    have hne := list.page_ne_nil page (List.mem_of_getElem? hpage)
    exact visitPage_of_total hreply hresponse hne h.numeral htotal
  obtain ⟨k, page, hk, hpage, _⟩ := exists_last list
  have hreach : PageLoop.Reaches (visitPage replies) 1 [] (k + 1) (gathered list k) := by
    apply reaches_of_again _ (by omega)
    intro k page hpage hlt packagesTemp
    rw [hvisit k page hpage, if_neg (by omega)]
  have hstop := hvisit k page hpage (gathered list k)
  rw [if_pos (by omega), ← gathered_succ hpage, hk, gathered_length] at hstop
  rw [← hk] at hstop
  exact hreach.run_of_stop hstop (by omega)

/-- Without it the loop ends after the last page, or after the empty page behind it when the
last one is full. -/
theorem ServedWithoutTotal.run_eq (h : ServedWithoutTotal render replies list) {requests : Nat}
    (hrequests : list.pages.length < requests) :
    PageLoop.run (visitPage replies) requests 1 [] =
      some (.complete (unlines (list.records.map PackageRecord.line))) := by
  have hvisit : ∀ k packagesTemp, visitPage replies (k + 1) packagesTemp =
      if (list.pages[k]?.getD []).length < 250 then
        .stop (packagesTemp ++ unlines ((list.pages[k]?.getD []).map PackageRecord.line))
      else .again (packagesTemp ++ unlines ((list.pages[k]?.getD []).map PackageRecord.line)) := by
    intro k packagesTemp
    obtain ⟨response, hreply, hresponse, htotal⟩ := h.served k
    exact visitPage_of_no_total hreply hresponse htotal
  obtain ⟨k, page, hk, hpage, hmem⟩ := exists_last list
  have hreach : PageLoop.Reaches (visitPage replies) 1 [] (k + 1) (gathered list k) := by
    apply reaches_of_again _ (by omega)
    intro k page hpage hlt packagesTemp
    rw [hvisit k, hpage, Option.getD_some, h.full k page hpage hlt, if_neg (by omega)]
  have hlast := hvisit k (gathered list k)
  rw [hpage, Option.getD_some, ← gathered_succ hpage, hk, gathered_length, ← hk] at hlast
  rcases Nat.lt_or_ge page.length 250 with hshort | hfull
  · rw [if_pos hshort] at hlast
    exact hreach.run_of_stop hlast (by omega)
  · rw [if_neg (by omega)] at hlast
    have hbehind : list.pages[k + 1]? = none := List.getElem?_eq_none (by omega)
    have hstop := hvisit (k + 1) (unlines (list.records.map PackageRecord.line))
    rw [hbehind, Option.getD_none, if_pos (by decide), List.map_nil] at hstop
    have hend : unlines [] = [] := rfl
    rw [hend, List.append_nil] at hstop
    exact (hreach.again hlast).run_of_stop hstop (by omega)

end Served

/-- The API serves the list in one of the two ways. -/
def Served (render : Document → Text) (replies : Nat → Reply) (list : PackageList) : Prop :=
  ServedWithTotal render replies list ∨ ServedWithoutTotal render replies list

section Records

variable {list : PackageList}

theorem PackageList.records_ne_nil (list : PackageList) : list.records ≠ [] := by
  obtain ⟨k, page, _, _, hmem⟩ := exists_last list
  obtain ⟨record, hrecord⟩ := List.exists_mem_of_ne_nil page (list.page_ne_nil page hmem)
  exact List.ne_nil_of_mem (List.mem_flatten.mpr ⟨page, hmem, hrecord⟩)

theorem PackageRecord.newline_notMem_line (record : PackageRecord) : '\n' ∉ record.line := by
  unfold PackageRecord.line
  rw [List.mem_append, List.mem_cons]
  rintro (hname | hcomma | hbase)
  · exact record.pkgname.newline hname
  · revert hcomma
    decide
  · exact record.base.newline hbase

theorem PackageRecord.secondField_line (record : PackageRecord) :
    secondField record.line = record.base.text :=
  secondField_of_notMem record.pkgname.comma record.base.comma

end Records

/-- A list that is served is published, complete and sorted, after at most one request more
than it has pages.  A request that fails, or a response that cannot be read, leaves both
files as they were, and the call ends with it. -/
theorem fetchRepository_complete (order : TotalOrder Text) (render : Document → Text)
    (replies : Nat → Reply) (files : Files) :
    (∀ list, Served render replies list → ∀ requests, list.pages.length < requests →
      ∃ packages urls, fetchRepository order replies requests files =
          ({ packages := some (unlines packages), cloneUrls := some (unlines urls) }, .succeeded) ∧
        IsListing order packages (list.records.map PackageRecord.line) ∧
          IsListing order urls (list.records.map PackageRecord.url)) ∧
    ∀ page, Requested replies page → Fails (replies page) → ∀ requests,
      fetchRepository order replies requests files =
        (files, if page ≤ requests then .failed else .requesting) := by
  refine ⟨?_, ?_⟩
  · intro list hserved requests hrequests
    have hrun : PageLoop.run (visitPage replies) requests 1 [] =
        some (.complete (unlines (list.records.map PackageRecord.line))) := by
      rcases hserved with htotal | hno
      · exact htotal.run_eq (Nat.le_of_lt hrequests)
      · exact hno.run_eq hrequests
    have hlines : ∀ line ∈ list.records.map PackageRecord.line, '\n' ∉ line := by
      intro line hline
      obtain ⟨record, _, rfl⟩ := List.mem_map.mp hline
      exact record.newline_notMem_line
    have hne : list.records.map PackageRecord.line ≠ [] :=
      mt List.map_eq_nil_iff.mp list.records_ne_nil
    obtain ⟨packages, urls, hpublish, hpackages, hurls⟩ :=
      @publish_unlines order _ hlines hne files
    have hfields : (list.records.map PackageRecord.line).map
        (fun line => cloneUrl (secondField line)) = list.records.map PackageRecord.url := by
      rw [List.map_map]
      apply List.map_congr_left
      intro record _
      exact congrArg cloneUrl record.secondField_line
    rw [hfields] at hurls
    refine ⟨packages, urls, ?_, hpackages, hurls⟩
    rw [fetchRepository, hrun]
    exact hpublish
  · intro page hrequested hfails requests
    exact fetchRepository_of_fails hrequested hfails requests files

section Sample

/-- The order of the C locale. -/
def byCodePoint : TotalOrder Text where
  le a b := decide (List.le a b)
  trans := by
    intro a b c hab hbc
    rw [decide_eq_true_eq] at *
    exact List.le_trans hab hbc
  total := by
    intro a b
    rw [Bool.or_eq_true, decide_eq_true_eq, decide_eq_true_eq]
    exact List.le_total a b
  antisymm := by
    intro a b hab hba
    rw [decide_eq_true_eq] at *
    exact List.le_antisymm hab hba

/-- Numbers are printed as they are spelled. -/
def asSpelled : Document → Text
  | .num lexeme => lexeme
  | _ => []

/-- The element that describes a record. -/
def elementOf (record : PackageRecord) : Document :=
  .obj [("pkgname".toList, .str record.pkgname.text),
    ("pkgbase".toList, (record.pkgbase.map fun base => Json.str base.text).getD .null)]

/-- The response for a page. -/
def responseOf (page : List PackageRecord) (total : Document) : Document :=
  .obj [("results".toList, .arr (page.map elementOf)), ("num_pages".toList, total)]

theorem pageOf_responseOf (page : List PackageRecord) (total : Document) :
    PageOf (responseOf page total) page := by
  refine ⟨page.map elementOf, rfl, ?_⟩
  rw [List.forall₂_map_left_iff]
  exact List.forall₂_same.mpr fun record _ => ⟨rfl, rfl⟩

/-- The replies with the pages of a list, and with empty pages behind them. -/
def repliesOf (list : PackageList) (total : Document) (page : Nat) : Reply :=
  document asSpelled (responseOf (list.pages[page - 1]?.getD []) total)

/-- Every list can be served with the number of its pages. -/
theorem served_repliesOf (list : PackageList) :
    Served asSpelled (repliesOf list (.num (Nat.toDigits 10 list.pages.length))) list := by
  refine Or.inl ⟨rfl, ?_⟩
  intro k page hpage
  refine ⟨_, rfl, ?_, rfl⟩
  rw [Nat.add_sub_cancel, hpage, Option.getD_some]
  exact pageOf_responseOf page _

/-- A list whose pages are full up to the last one can be served without it. -/
theorem served_repliesOf_null (list : PackageList)
    (hfull : ∀ k page, list.pages[k]? = some page → k + 1 < list.pages.length →
      page.length = 250) : Served asSpelled (repliesOf list .null) list := by
  refine Or.inr ⟨hfull, ?_⟩
  intro k
  refine ⟨_, rfl, ?_, rfl⟩
  rw [Nat.add_sub_cancel]
  exact pageOf_responseOf _ _

def bash : PackageRecord where
  pkgname := { text := "bash".toList, comma := by decide, newline := by decide }
  pkgbase := none

def gccLibs : PackageRecord where
  pkgname := { text := "gcc-libs".toList, comma := by decide, newline := by decide }
  pkgbase := some { text := "gcc".toList, comma := by decide, newline := by decide }

/-- Three pages, with a record that comes twice. -/
def sampleList : PackageList where
  pages := [[gccLibs, bash], [bash], [gccLibs]]
  pages_ne_nil := List.cons_ne_nil _ _
  page_ne_nil := by decide
  page_length_le := by decide

/-- A page that is full, and one more. -/
def fullList : PackageList where
  pages := [List.replicate 250 bash, [gccLibs]]
  pages_ne_nil := List.cons_ne_nil _ _
  page_ne_nil := List.forall_mem_cons.mpr
    ⟨List.ne_nil_of_length_pos (List.length_replicate ▸ Nat.succ_pos _), by decide⟩
  page_length_le := List.forall_mem_cons.mpr ⟨List.length_replicate.le, by decide⟩

/-- The second page has an element that is no record. -/
def brokenReplies (page : Nat) : Reply :=
  if page = 2 then
    document asSpelled (.obj [("results".toList, .arr [elementOf bash, .num ['7']]),
      ("num_pages".toList, .num ['3'])])
  else repliesOf sampleList (.num ['3']) page

theorem requested_brokenReplies : Requested brokenReplies 2 := by
  have hpage := pageOf_responseOf [gccLibs, bash] (.num ['3'])
  have hagain : visitPage brokenReplies 1 [] =
      .again ([] ++ unlines ([gccLibs, bash].map PackageRecord.line)) :=
    (visitPage_of_total rfl hpage (List.cons_ne_nil _ _) rfl rfl).trans
      (if_neg (by decide : ¬ 3 ≤ 1))
  exact ⟨_, .again .first hagain⟩

theorem fetchRepository_complete_sample :
    (∃ packages urls,
      fetchRepository byCodePoint (repliesOf sampleList (.num ['3'])) 4 ⟨none, none⟩ =
        ({ packages := some (unlines packages), cloneUrls := some (unlines urls) }, .succeeded) ∧
      IsListing byCodePoint packages (sampleList.records.map PackageRecord.line) ∧
        IsListing byCodePoint urls (sampleList.records.map PackageRecord.url)) ∧
    (∃ packages urls,
      fetchRepository byCodePoint (repliesOf fullList .null) 3 ⟨none, none⟩ =
        ({ packages := some (unlines packages), cloneUrls := some (unlines urls) }, .succeeded) ∧
      IsListing byCodePoint packages (fullList.records.map PackageRecord.line) ∧
        IsListing byCodePoint urls (fullList.records.map PackageRecord.url)) ∧
    fetchRepository byCodePoint brokenReplies 4
        ⟨some "bash,bash\n".toList, some (bash.url ++ ['\n'])⟩ =
      (⟨some "bash,bash\n".toList, some (bash.url ++ ['\n'])⟩, .failed) := by
  refine ⟨?_, ?_, ?_⟩
  · have hcomplete := fetchRepository_complete byCodePoint asSpelled
      (repliesOf sampleList (.num ['3'])) ⟨none, none⟩
    exact hcomplete.1 sampleList (served_repliesOf sampleList) 4 (by decide)
  · have hfull : ∀ k page, fullList.pages[k]? = some page → k + 1 < fullList.pages.length →
        page.length = 250 := by
      intro k page hpage hlt
      obtain rfl : k = 0 := Nat.lt_one_iff.mp (Nat.lt_of_succ_lt_succ hlt)
      rw [← Option.some.inj hpage]
      exact List.length_replicate
    have hcomplete := fetchRepository_complete byCodePoint asSpelled (repliesOf fullList .null)
      ⟨none, none⟩
    exact hcomplete.1 fullList (served_repliesOf_null fullList hfull) 3 (by decide)
  · have hcomplete := fetchRepository_complete byCodePoint asSpelled brokenReplies
      ⟨some "bash,bash\n".toList, some (bash.url ++ ['\n'])⟩
    exact hcomplete.2 2 requested_brokenReplies (Or.inl rfl) 4

end Sample

end Icflow.Listing
