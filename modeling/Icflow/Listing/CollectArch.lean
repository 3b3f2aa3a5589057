import Icflow.Collect.Accounting
import Icflow.Listing.Pagination

set_option autoImplicit false

/-!
# `collect_arch.sh`

The script fetches the package lists if one of those it needs is missing, and collects each
of them with `collect_dynamic.sh`.  Its exit status stands for the whole way from the
package API to `processed_urls.txt`.

Both collections work below the same `WORK_ROOT`, and each has an output directory of its
own.
-/

namespace Icflow.Listing

open Icflow.Foundation Icflow.Collect

inductive Repository where
  | core
  | extra
  deriving DecidableEq

/-- `case $selection` -/
def repositories (selection : List Char) : Option (List Repository) :=
  if selection = "core".toList then some [.core]
  else if selection = "extra".toList then some [.extra]
  else if selection = "all".toList then some [.core, .extra]
  else none

/-- What the machine, the API and the commands decide. -/
structure Environment where
  /-- the order of the locale -/
  order : TotalOrder Text
  /-- `collect_arch_git.sh` finds its commands and makes its directories -/
  fetchReady : Bool
  replies : Repository → Nat → Reply
  machine : Machine
  /-- `collect_dynamic.sh` gets as far as its main loop -/
  collectReady : Repository → Bool
  oracle : Repository → Nat → Commands

/-- What the scripts leave on the disk. -/
structure Archive where
  /-- the directories beside the scripts -/
  lists : Repository → Files
  /-- the directories below `WORK_ROOT` -/
  checkouts : Collect.PackageName → Option Url
  /-- the directories below `output_root` -/
  outputs : Repository → Collection

/-- `collect_arch_git.sh`, which errexit ends with the first list that is not fetched. -/
def collectArchGit (env : Environment) (requests : Nat) (lists : Repository → Files) :
    (Repository → Files) × Status :=
  if ¬ env.fetchReady then (lists, .failed)
  else
    let core := fetchRepository env.order (env.replies .core) requests (lists .core)
    let lists := Function.update lists .core core.1
    if core.2 ≠ .succeeded then (lists, core.2)
    else
      let extra := fetchRepository env.order (env.replies .extra) requests (lists .extra)
      (Function.update lists .extra extra.1, extra.2)

/-- `collect_dynamic.sh` for the list of a repository, and whether its exit status is zero. -/
def collectDynamic (env : Environment) (repository : Repository) (urlList : Text) (s : Archive) :
    Archive × Bool :=
  if ¬ env.collectReady repository then (s, false)
  else
    let after := mainLoop env.machine (env.oracle repository)
      { s.outputs repository with checkouts := s.checkouts } urlList
    ({ s with
        checkouts := after.checkouts
        outputs := Function.update s.outputs repository after },
      after.failures = 0)

/-- One turn of the second loop, with the failures so far. -/
def collectRepository (env : Environment) (s : Archive × Nat) (repository : Repository) :
    Archive × Nat :=
  match (s.1.lists repository).cloneUrls with
  | none => (s.1, s.2 + 1)
  | some urlList =>
      let result := collectDynamic env repository urlList s.1
      (result.1, if result.2 then s.2 else s.2 + 1)

/-- The URL list of a repository is missing. -/
def isMissing (lists : Repository → Files) (repository : Repository) : Bool :=
  (lists repository).cloneUrls.isNone

/-- The first loop: one list that is missing makes the script fetch both. -/
def completeLists (env : Environment) (requests : Nat) (chosen : List Repository)
    (lists : Repository → Files) : (Repository → Files) × Status :=
  if chosen.any (isMissing lists) then collectArchGit env requests lists
  else (lists, .succeeded)

/-- `collect_arch.sh` after at most the given number of requests for each list. -/
def collectArch (env : Environment) (requests : Nat) (selection : List Char) (s : Archive) :
    Archive × Status :=
  if selection = "-h".toList ∨ selection = "--help".toList then (s, .succeeded)
  else
    match repositories selection with
    | none => (s, .failed)
    | some chosen =>
        let fetched := completeLists env requests chosen s.lists
        let s := { s with lists := fetched.1 }
        if fetched.2 ≠ .succeeded then (s, fetched.2)
        else
          let result := chosen.foldl (collectRepository env) (s, 0)
          (result.1, if result.2 = 0 then .succeeded else .failed)

/-- The commands leave the input that they inherit alone. -/
structure Silent (commands : Commands) : Prop where
  grep : commands.grepReads = 0
  clone : commands.cloneReads = 0
  build : commands.buildReads = 0
  test : commands.testReads = 0

theorem Silent.reads {commands : Commands} (h : Silent commands) (machine : Machine) (url : Url)
    (s : Collection) : (processPackage machine commands url s).reads = 0 := by
  unfold processPackage
  dsimp only
  rw [h.clone, h.build, h.test, ite_self]
  split
  · rfl
  · split
    · rfl
    · split
      · rfl
      · split <;> rfl

theorem loopBody_reads {machine : Machine} {oracle : Nat → Commands}
    (hsilent : ∀ n, Silent (oracle n)) (state : LoopState) (line : Text) :
    (loopBody machine oracle state line).2 = 0 := by
  unfold loopBody
  split
  · rfl
  · rename_i url _
    have hcommands := hsilent state.iterations
    have hgrep : (grepProcessed (oracle state.iterations) url state.collection).2 = 0 := by
      unfold grepProcessed
      split
      · exact hcommands.grep
      · rfl
    have hpackage := hcommands.reads machine url state.collection
    unfold iterate
    dsimp only
    split
    · exact hgrep
    · split
      · rw [hgrep, hpackage]
      · rw [hgrep, hpackage]

section Collecting

variable {env : Environment} {s : Archive × Nat} {repository other : Repository}

theorem collectRepository_lists (env : Environment) (s : Archive × Nat) (repository : Repository) :
    (collectRepository env s repository).1.lists = s.1.lists := by
  unfold collectRepository collectDynamic
  split
  · rfl
  · dsimp only
    split <;> rfl

/-- A turn of the loop takes nothing out of `processed_urls.txt`. -/
theorem ended_subset_collectRepository (env : Environment) (s : Archive × Nat)
    (repository other : Repository) :
    (s.1.outputs other).processed.ended ⊆
      ((collectRepository env s repository).1.outputs other).processed.ended := by
  unfold collectRepository collectDynamic
  split
  · exact List.Subset.refl _
  · rename_i urlList _
    dsimp only
    split
    · exact List.Subset.refl _
    · dsimp only
      rcases eq_or_ne other repository with rfl | hne
      · rw [Function.update_self]
        exact ended_subset_mainLoop env.machine (env.oracle other)
          { s.1.outputs other with checkouts := s.1.checkouts } urlList
      · rw [Function.update_of_ne hne]
        exact List.Subset.refl _

/-- A turn of the loop leaves no line open. -/
theorem rest_collectRepository (hended : (s.1.outputs other).processed.rest = [])
    (repository : Repository) :
    ((collectRepository env s repository).1.outputs other).processed.rest = [] := by
  unfold collectRepository collectDynamic
  split
  · exact hended
  · rename_i urlList _
    dsimp only
    split
    · exact hended
    · dsimp only
      rcases eq_or_ne other repository with rfl | hne
      · rw [Function.update_self]
        exact rest_mainLoop_of_ended hended
      · rw [Function.update_of_ne hne]
        exact hended

/-- A turn that counts no failure has processed the list. -/
theorem collectRepository_ok (hsilent : ∀ n, Silent (env.oracle repository n))
    (hended : (s.1.outputs repository).processed.rest = [])
    (hok : (collectRepository env s repository).2 = 0) :
    s.2 = 0 ∧ ∃ urlList, (s.1.lists repository).cloneUrls = some urlList ∧
      ∀ url ∈ listed env.machine urlList, isOption url = false →
        url ∈ ((collectRepository env s repository).1.outputs repository).processed.ended := by
  unfold collectRepository at hok ⊢
  cases hlist : (s.1.lists repository).cloneUrls with
  | none =>
      rw [hlist] at hok
      exact absurd hok (Nat.succ_ne_zero _)
  | some urlList =>
      rw [hlist] at hok
      dsimp only at hok ⊢
      unfold collectDynamic at hok ⊢
      by_cases hready : env.collectReady repository = true
      · rw [if_neg (not_not_intro hready)] at hok ⊢
        dsimp only at hok ⊢
        split at hok
        · rename_i hnone
          refine ⟨hok, urlList, rfl, ?_⟩
          intro url hurl hoption
          rw [Function.update_self]
          refine processed_of_quiet ?_ (loopBody_reads hsilent) (of_decide_eq_true hnone) hurl
            hoption
          exact hended
        · exact absurd hok (Nat.succ_ne_zero _)
      · rw [if_pos hready] at hok
        exact absurd hok (Nat.succ_ne_zero _)

/-- The loop over the repositories, when it counts no failure. -/
theorem collected_of_no_failures (hsilent : ∀ repository n, Silent (env.oracle repository n))
    {chosen : List Repository}
    (hended : ∀ repository ∈ chosen, (s.1.outputs repository).processed.rest = [])
    (hok : (chosen.foldl (collectRepository env) s).2 = 0) :
    s.2 = 0 ∧ (chosen.foldl (collectRepository env) s).1.lists = s.1.lists ∧
      ∀ repository, (s.1.outputs repository).processed.ended ⊆
          ((chosen.foldl (collectRepository env) s).1.outputs repository).processed.ended ∧
        (repository ∈ chosen → ∃ urlList, (s.1.lists repository).cloneUrls = some urlList ∧
          ∀ url ∈ listed env.machine urlList, isOption url = false →
            url ∈ ((chosen.foldl (collectRepository env) s).1.outputs repository).processed.ended) := by
  induction chosen generalizing s with
  | nil => exact ⟨hok, rfl, fun _ => ⟨List.Subset.refl _, fun h => absurd h List.not_mem_nil⟩⟩
  | cons first rest ih =>
      rw [List.foldl_cons] at hok ⊢
      obtain ⟨hfirstEnded, hrestEnded⟩ := List.forall_mem_cons.mp hended
      obtain ⟨hbefore, hlists, hrest⟩ := ih (fun repository hmem =>
        rest_collectRepository (hrestEnded repository hmem) first) hok
      obtain ⟨hzero, urlList, hlist, hfirst⟩ :=
        collectRepository_ok (hsilent first) hfirstEnded hbefore
      rw [collectRepository_lists] at hlists hrest
      refine ⟨hzero, hlists, ?_⟩
      intro repository
      obtain ⟨hkept, hchosen⟩ := hrest repository
      refine ⟨List.Subset.trans (ended_subset_collectRepository env s first repository) hkept, ?_⟩
      intro hmem
      rcases List.mem_cons.mp hmem with rfl | hlater
      · exact ⟨urlList, hlist, fun url hurl hoption => hkept (hfirst url hurl hoption)⟩
      · exact hchosen hlater

end Collecting

section Fetching

variable {env : Environment} {requests : Nat} {lists : Repository → Files}

/-- Both lists are fetched, or the script fails. -/
theorem fetchRepository_of_collectArchGit
    (hok : (collectArchGit env requests lists).2 = .succeeded) (repository : Repository) :
    fetchRepository env.order (env.replies repository) requests (lists repository) =
      ((collectArchGit env requests lists).1 repository, .succeeded) := by
  unfold collectArchGit at hok ⊢
  split at hok
  · cases hok
  · dsimp only at hok ⊢
    split at hok
    · rename_i hready hcore
      exact absurd hok hcore
    · rename_i hready hcore
      rw [ne_eq, not_not] at hcore
      have hne : Repository.extra ≠ .core := by decide
      rw [Function.update_of_ne hne] at hok
      rw [if_neg hready, if_neg (not_not_intro hcore), Function.update_of_ne hne]
      dsimp only at hok ⊢
      cases repository with
      | core => rw [Function.update_of_ne hne.symm, Function.update_self, ← hcore]
      | extra => rw [Function.update_self, ← hok]

/-- A list that is served is fetched, with the URLs of all its records. -/
theorem exists_fetched_of_served {order : TotalOrder Text} {render : Document → Text}
    {replies : Nat → Reply} {packages : PackageList} (hserved : Served render replies packages)
    (hrequests : packages.pages.length < requests) (files : Files) :
    ∃ fetched urls, fetchRepository order replies requests files = (fetched, .succeeded) ∧
      fetched.cloneUrls = some (unlines urls) ∧
        ∀ url, url ∈ urls ↔ url ∈ packages.records.map PackageRecord.url := by
  have hrun : PageLoop.run (visitPage replies) requests 1 [] =
      some (.complete (unlines (packages.records.map PackageRecord.line))) := by
    rcases hserved with htotal | hno
    · exact htotal.run_eq (Nat.le_of_lt hrequests)
    · exact hno.run_eq hrequests
  have hlines : ∀ line ∈ packages.records.map PackageRecord.line, '\n' ∉ line := by
    intro line hline
    obtain ⟨record, _, rfl⟩ := List.mem_map.mp hline
    exact record.newline_notMem_line
  have hne : packages.records.map PackageRecord.line ≠ [] :=
    mt List.map_eq_nil_iff.mp packages.records_ne_nil
  obtain ⟨lines, urls, hpublish, _, hurls⟩ := @publish_unlines order _ hlines hne files
  refine ⟨{ packages := some (unlines lines), cloneUrls := some (unlines urls) }, urls, ?_, rfl, ?_⟩
  · rw [fetchRepository, hrun]
    exact hpublish
  · intro url
    have hfields : (fun line => cloneUrl (secondField line)) ∘ PackageRecord.line =
        PackageRecord.url := funext fun record => congrArg cloneUrl record.secondField_line
    rw [hurls.mem, List.map_map, hfields]

/-- Both lists are fetched when both are served. -/
theorem collectArchGit_of_served {render : Repository → Document → Text}
    {packages : Repository → PackageList} (hready : env.fetchReady = true)
    (hserved : ∀ repository, Served (render repository) (env.replies repository) (packages repository))
    (hrequests : ∀ repository, (packages repository).pages.length < requests) :
    ∃ fetched, collectArchGit env requests lists = (fetched, .succeeded) ∧
      ∀ repository, isMissing fetched repository = false := by
  have hfetch : ∀ repository, ∃ fetched,
      fetchRepository env.order (env.replies repository) requests (lists repository) =
        (fetched, .succeeded) ∧ fetched.cloneUrls.isNone = false := by
    intro repository
    obtain ⟨fetched, urls, hfetched, hurls, _⟩ :=
      exists_fetched_of_served (hserved repository) (hrequests repository) (lists repository)
    refine ⟨fetched, hfetched, ?_⟩
    rw [hurls]
    rfl
  obtain ⟨core, hcore, hcoreUrls⟩ := hfetch .core
  obtain ⟨extra, hextra, hextraUrls⟩ := hfetch .extra
  have hne : Repository.extra ≠ .core := by decide
  refine ⟨Function.update (Function.update lists .core core) .extra extra, ?_, ?_⟩
  · unfold collectArchGit
    dsimp only
    rw [if_neg (not_not_intro hready), hcore, Function.update_of_ne hne, hextra,
      if_neg (not_not_intro rfl)]
  · intro repository
    unfold isMissing
    cases repository with
    | core => rw [Function.update_of_ne hne.symm, Function.update_self, hcoreUrls]
    | extra => rw [Function.update_self, hextraUrls]

end Fetching

section Reading

variable {machine : Machine}

/-- The characters of a URL that the base does not have. -/
theorem notMem_cloneUrl {c : Char} {base : Text} (hfixed : c ∉ cloneUrl []) (hbase : c ∉ base) :
    c ∉ cloneUrl base := by
  unfold cloneUrl at hfixed ⊢
  rw [List.append_nil, List.mem_append, not_or] at hfixed
  rw [List.mem_append, List.mem_append]
  rintro ((hfront | hmem) | hsuffix)
  · exact hfixed.1 hfront
  · exact hbase hmem
  · exact hfixed.2 hsuffix

theorem getLast?_cloneUrl (base : Text) : (cloneUrl base).getLast? = some 't' := by
  have hsuffix : ".git".toList.getLast? = some 't' := by decide
  have hne : ".git".toList ≠ [] := by decide
  unfold cloneUrl
  rw [List.getLast?_append_of_ne_nil _ hne, hsuffix]

/-- The line of a package is read as its URL. -/
theorem urlOf_cloneUrl (hblanks : ∀ blank ∈ machine.blanks, blank.head? ≠ some 'h') (base : Text) :
    urlOf machine (cloneUrl base) = some (cloneUrl base) := by
  have hcons : ∃ rest, cloneUrl base = 'h' :: rest :=
    ⟨"ttps://gitlab.archlinux.org/archlinux/packaging/packages/".toList ++ base ++ ".git".toList,
      rfl⟩
  obtain ⟨rest, hrest⟩ := hcons
  have hstrip : stripReturn (cloneUrl base) = cloneUrl base := by
    rw [stripReturn, getLast?_cloneUrl]
    exact if_neg (by decide)
  have hcomment : isComment machine (cloneUrl base) = false := by
    rw [isComment, hrest, dropBlanks_of_head hblanks]
    rfl
  rw [urlOf, hstrip]
  apply if_neg
  rintro (hnil | hyes)
  · rw [hrest] at hnil
    cases hnil
  · rw [hcomment] at hyes
    cases hyes

theorem not_isOption_cloneUrl (base : Text) : isOption (cloneUrl base) = false := rfl

/-- A line of package URLs is read as it was written. -/
theorem mem_listed_unlines {urls : List Text} (hlines : ∀ url ∈ urls, '\n' ∉ url)
    (hblanks : ∀ blank ∈ machine.blanks, blank.head? ≠ some 'h') {base : Text} (hnull : '\x00' ∉ base)
    (hmem : cloneUrl base ∈ urls) : cloneUrl base ∈ listed machine (unlines urls) := by
  have hkept : ReadLoop.dropNulls (cloneUrl base) = cloneUrl base := by
    apply List.filter_eq_self.mpr
    intro c hc
    apply bne_iff_ne.mpr
    rintro rfl
    exact notMem_cloneUrl (by decide) hnull hc
  rw [listed, ReadLoop.filterMap_readLines rfl, pieces_unlines hlines]
  refine List.mem_filterMap.mpr ⟨cloneUrl base, hmem, ?_⟩
  rw [hkept]
  exact urlOf_cloneUrl hblanks base

theorem PackageRecord.newline_notMem_url (record : PackageRecord) : '\n' ∉ record.url :=
  notMem_cloneUrl (by decide) record.base.newline

end Reading

section Runs

variable {env : Environment} {requests : Nat} {selection : List Char} {s final : Archive}
  {chosen : List Repository}

theorem not_help (hchosen : repositories selection = some chosen) :
    ¬ (selection = "-h".toList ∨ selection = "--help".toList) := by
  rintro (rfl | rfl) <;> cases hchosen

/-- A run that does not fail has its lists, those of before or fetched ones, and has
collected them. -/
theorem collectArch_succeeded (hchosen : repositories selection = some chosen)
    (hrun : collectArch env requests selection s = (final, .succeeded)) :
    ∃ lists, completeLists env requests chosen s.lists = (lists, .succeeded) ∧
      chosen.foldl (collectRepository env) ({ s with lists := lists }, 0) = (final, 0) := by
  unfold collectArch at hrun
  rw [if_neg (not_help hchosen), hchosen] at hrun
  dsimp only at hrun
  split at hrun
  · rename_i hfetched
    exact absurd (congrArg Prod.snd hrun) hfetched
  · rename_i hfetched
    rw [ne_eq, not_not] at hfetched
    obtain ⟨hfinal, hstatus⟩ := Prod.mk.inj hrun
    refine ⟨_, Prod.ext rfl hfetched, Prod.ext hfinal ?_⟩
    by_contra hfailures
    rw [if_neg hfailures] at hstatus
    cases hstatus

/-- A run of `collect_arch.sh` that ends with status zero has processed every URL of its lists,
and where it had to fetch them, every package base that the API serves. -/
theorem collectArch_processed (hsilent : ∀ repository n, Silent (env.oracle repository n))
    (hblanks : ∀ blank ∈ env.machine.blanks, blank.head? ≠ some 'h')
    (hchosen : repositories selection = some chosen)
    (hended : ∀ repository ∈ chosen, (s.outputs repository).processed.rest = [])
    (hrun : collectArch env requests selection s = (final, .succeeded)) :
    ∀ repository ∈ chosen,
      (∃ urlList, (final.lists repository).cloneUrls = some urlList ∧
        ∀ url ∈ listed env.machine urlList, isOption url = false →
          url ∈ (final.outputs repository).processed.lines) ∧
      (chosen.any (isMissing s.lists) = true →
        ∀ render packages, Served render (env.replies repository) packages →
          packages.pages.length < requests →
            ∀ record ∈ packages.records, '\x00' ∉ record.base.text →
              record.url ∈ (final.outputs repository).processed.lines) := by
  intro repository hmem
  obtain ⟨lists, hlists, hcollected⟩ := collectArch_succeeded hchosen hrun
  obtain ⟨_, hkept, hprocessed⟩ :=
    collected_of_no_failures hsilent hended (congrArg Prod.snd hcollected)
  rw [hcollected] at hkept hprocessed
  obtain ⟨urlList, hlist, hended⟩ := (hprocessed repository).2 hmem
  have hurls : ∀ url ∈ listed env.machine urlList, isOption url = false →
      url ∈ (final.outputs repository).processed.lines := fun url hurl hoption =>
    LineFile.mem_lines.mpr (Or.inl (hended url hurl hoption))
  refine ⟨⟨urlList, ?_, hurls⟩, ?_⟩
  · rw [hkept]
    exact hlist
  · intro hmissing render packages hserved hrequests record hrecord hnull
    rw [completeLists, if_pos hmissing] at hlists
    have hfetched := fetchRepository_of_collectArchGit (congrArg Prod.snd hlists) repository
    obtain ⟨fetched, urls, hcomplete, hcloneUrls, hmemUrls⟩ :=
      exists_fetched_of_served hserved hrequests (s.lists repository)
    rw [hfetched, hlists] at hcomplete
    obtain ⟨rfl, _⟩ := Prod.mk.inj hcomplete
    obtain rfl := Option.some.inj (hcloneUrls.symm.trans hlist)
    have hlines : ∀ url ∈ urls, '\n' ∉ url := by
      intro url hurl
      obtain ⟨other, _, rfl⟩ := List.mem_map.mp ((hmemUrls url).mp hurl)
      exact other.newline_notMem_url
    have hurl : record.url ∈ urls := (hmemUrls _).mpr (List.mem_map_of_mem hrecord)
    exact hurls record.url (mem_listed_unlines hlines hblanks hnull hurl) (not_isOption_cloneUrl _)

end Runs

section Success

variable {env : Environment} {s : Archive × Nat} {chosen : List Repository}

/-- Where no package fails, the loop over the repositories counts no failure. -/
theorem failures_foldl (hready : ∀ repository, env.collectReady repository = true)
    (hsucceeds : ∀ repository n url c,
      (processPackage env.machine (env.oracle repository n) url c).succeeds = true)
    (hpresent : ∀ repository ∈ chosen, isMissing s.1.lists repository = false) (hzero : s.2 = 0) :
    (chosen.foldl (collectRepository env) s).2 = 0 := by
  induction chosen generalizing s with
  | nil => exact hzero
  | cons first rest ih =>
      rw [List.foldl_cons]
      apply ih
      · intro repository hmem
        rw [collectRepository_lists]
        exact hpresent repository (List.mem_cons_of_mem _ hmem)
      · have hfirst := hpresent first List.mem_cons_self
        unfold isMissing at hfirst
        unfold collectRepository
        cases hlist : (s.1.lists first).cloneUrls with
        | none =>
            rw [hlist] at hfirst
            cases hfirst
        | some urlList =>
            dsimp only
            unfold collectDynamic
            rw [if_neg (not_not_intro (hready first))]
            dsimp only
            rw [if_pos (decide_eq_true (failures_of_succeeding (hsucceeds first)))]
            exact hzero

/-- Where the lists are served and no package fails, the run ends with status zero. -/
theorem exists_collectArch_succeeded {requests : Nat} {selection : List Char} {s : Archive}
    {render : Repository → Document → Text} {packages : Repository → PackageList}
    (hfetch : env.fetchReady = true)
    (hserved : ∀ repository, Served (render repository) (env.replies repository) (packages repository))
    (hrequests : ∀ repository, (packages repository).pages.length < requests)
    (hready : ∀ repository, env.collectReady repository = true)
    (hsucceeds : ∀ repository n url c,
      (processPackage env.machine (env.oracle repository n) url c).succeeds = true)
    (hchosen : repositories selection = some chosen) :
    ∃ final, collectArch env requests selection s = (final, .succeeded) := by
  have hlists : ∃ lists, completeLists env requests chosen s.lists = (lists, .succeeded) ∧
      ∀ repository ∈ chosen, isMissing lists repository = false := by
    unfold completeLists
    split
    · obtain ⟨fetched, hfetched, hpresent⟩ := collectArchGit_of_served hfetch hserved hrequests
      exact ⟨fetched, hfetched, fun repository _ => hpresent repository⟩
    · rename_i hpresent
      refine ⟨s.lists, rfl, ?_⟩
      intro repository hmem
      have hnone := List.any_eq_false.mp (eq_false_of_ne_true hpresent) repository hmem
      exact eq_false_of_ne_true hnone
  obtain ⟨lists, hcomplete, hpresent⟩ := hlists
  refine ⟨(chosen.foldl (collectRepository env) ({ s with lists := lists }, 0)).1, ?_⟩
  unfold collectArch
  rw [if_neg (not_help hchosen), hchosen]
  dsimp only
  rw [hcomplete, if_neg (not_not_intro rfl)]
  dsimp only
  rw [failures_foldl hready hsucceeds hpresent rfl, if_pos rfl]

end Success

/-! ## The same selection again -/

/-- Nothing has been fetched, cloned, built, tested or recorded in between. -/
structure Idle (before after : Archive) : Prop where
  lists : after.lists = before.lists
  checkouts : after.checkouts = before.checkouts
  processed : ∀ repository, (after.outputs repository).processed =
    (before.outputs repository).processed
  built : ∀ repository, (after.outputs repository).built = (before.outputs repository).built
  written : ∀ repository, (after.outputs repository).written = (before.outputs repository).written

/-- The lists of the repositories hold nothing but URLs that have been processed. -/
def Settled (machine : Machine) (chosen : List Repository) (s : Archive) : Prop :=
  ∀ repository ∈ chosen, ∃ urlList, (s.lists repository).cloneUrls = some urlList ∧
    ∀ url ∈ listed machine urlList,
      isOption url = false ∧ url ∈ (s.outputs repository).processed.lines

section Again

variable {env : Environment} {requests : Nat} {selection : List Char} {s t : Archive}
  {chosen : List Repository} {repository : Repository}

theorem Settled.congr (h : Settled env.machine chosen s) (hidle : Idle s t) :
    Settled env.machine chosen t := by
  intro repository hmem
  rw [hidle.lists, hidle.processed]
  exact h repository hmem

/-- What a new collection has in common with the one that it replaces, all collections have. -/
theorem field_update {α : Type} (field : Collection → α) {outputs : Repository → Collection}
    {after : Collection} (hfield : field after = field (outputs repository)) (other : Repository) :
    field (Function.update outputs repository after other) = field (outputs other) := by
  rcases eq_or_ne other repository with rfl | hne
  · rw [Function.update_self, hfield]
  · rw [Function.update_of_ne hne]

/-- A turn for a list that is settled. -/
theorem collectRepository_of_settled (h : Settled env.machine chosen s)
    (hready : env.collectReady repository = true) (hmem : repository ∈ chosen) :
    (collectRepository env (s, 0) repository).2 = 0 ∧
      Idle s (collectRepository env (s, 0) repository).1 := by
  obtain ⟨urlList, hlist, hurls⟩ := h repository hmem
  have hloop : mainLoop env.machine (env.oracle repository)
      { s.outputs repository with checkouts := s.checkouts } urlList =
        ({ s.outputs repository with checkouts := s.checkouts } : Collection).resume :=
    mainLoop_of_processed hurls
  unfold collectRepository
  rw [hlist]
  dsimp only
  unfold collectDynamic
  rw [if_neg (not_not_intro hready)]
  dsimp only
  rw [hloop]
  exact ⟨if_pos rfl, rfl, rfl, field_update Collection.processed rfl,
    field_update Collection.built rfl, field_update Collection.written rfl⟩

theorem Idle.trans {u : Archive} (h : Idle s t) (h' : Idle t u) : Idle s u where
  lists := h'.lists.trans h.lists
  checkouts := h'.checkouts.trans h.checkouts
  processed := fun repository => (h'.processed repository).trans (h.processed repository)
  built := fun repository => (h'.built repository).trans (h.built repository)
  written := fun repository => (h'.written repository).trans (h.written repository)

theorem foldl_of_settled {rest : List Repository} (h : Settled env.machine chosen s)
    (hready : ∀ repository ∈ chosen, env.collectReady repository = true)
    (hsubset : rest ⊆ chosen) :
    ∃ t, rest.foldl (collectRepository env) (s, 0) = (t, 0) ∧ Idle s t := by
  induction rest generalizing s with
  | nil => exact ⟨s, rfl, rfl, rfl, fun _ => rfl, fun _ => rfl, fun _ => rfl⟩
  | cons first rest ih =>
      have hfirst : first ∈ chosen := hsubset List.mem_cons_self
      obtain ⟨hzero, hidle⟩ := collectRepository_of_settled h (hready first hfirst) hfirst
      obtain ⟨t, hrest, hlater⟩ := ih (h.congr hidle) fun _ hmem => hsubset (List.mem_cons_of_mem _ hmem)
      refine ⟨t, ?_, hidle.trans hlater⟩
      rw [List.foldl_cons, ← hrest]
      exact congrArg (rest.foldl (collectRepository env)) (Prod.ext rfl hzero)

end Again

section Sample

/-- Commands that all succeed and read nothing. -/
def quietCommands : Commands := { greedyCommands with testReads := 0 }

/-- Both lists are served in three pages. -/
def sampleEnvironment : Environment where
  order := byCodePoint
  fetchReady := true
  replies := fun _ => repliesOf sampleList (.num ['3'])
  machine := sampleMachine
  collectReady := fun _ => true
  oracle := fun _ _ => quietCommands

/-- Nothing has been collected, and these are the URL lists. -/
def freshArchive (cloneUrls : Option Text) : Archive where
  lists := fun _ => { packages := none, cloneUrls := cloneUrls }
  checkouts := fun _ => none
  outputs := fun _ => .empty

theorem silent_sampleEnvironment (repository : Repository) (n : Nat) :
    Silent (sampleEnvironment.oracle repository n) := ⟨rfl, rfl, rfl, rfl⟩

theorem exists_sampleRun {selection : List Char} {chosen : List Repository} (s : Archive)
    (hchosen : repositories selection = some chosen) :
    ∃ final, collectArch sampleEnvironment 4 selection s = (final, .succeeded) := by
  have hsucceeds : ∀ url c, (processPackage sampleMachine quietCommands url c).succeeds = true := by
    intro url c
    simp [processPackage, quietCommands, greedyCommands]
  exact exists_collectArch_succeeded rfl (fun _ => served_repliesOf sampleList) (fun _ => by decide)
    (fun _ => rfl) (fun _ _ => hsucceeds) hchosen

theorem collectArch_processed_sample :
    ∃ final, collectArch sampleEnvironment 4 "all".toList (freshArchive none) = (final, .succeeded) ∧
      cloneUrl "bash".toList ∈ (final.outputs .extra).processed.lines := by
  have hall : repositories "all".toList = some [.core, .extra] := rfl
  obtain ⟨final, hrun⟩ := exists_sampleRun (freshArchive none) hall
  have hprocessed := collectArch_processed silent_sampleEnvironment (by decide) hall
    (fun _ _ => rfl) hrun .extra (by decide)
  exact ⟨final, hrun, hprocessed.2 rfl asSpelled sampleList (served_repliesOf sampleList)
    (by decide) bash (List.mem_cons_of_mem _ List.mem_cons_self) (by decide)⟩

end Sample

end Icflow.Listing
