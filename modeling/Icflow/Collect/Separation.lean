import Icflow.Collect.Accounting

set_option autoImplicit false

/-!
# Packages that share a directory

`process_package` looks for its files in a directory named after the last component of
the URL and takes a checkout that is there already.  As long as every such checkout
comes from the URL at hand, nothing of one URL gets into the results of another.
-/

namespace Icflow.Collect

open Icflow.Foundation

/-- The files after any number of runs of the script. -/
inductive Runs (machine : Machine) : Collection → Prop where
  | start : Runs machine .empty
  | run (oracle : Nat → Commands) (s : Collection) (text : List Char) (h : Runs machine s) :
      Runs machine (mainLoop machine oracle s text)

/-- Every processed URL was built and tested in a checkout of its own, and nobody else wrote
its execution log and artifacts. -/
def Separate (machine : Machine) (s : Collection) : Prop :=
  ∀ url ∈ s.processed.lines, url ≠ [] →
    (∀ origin, (url, origin) ∈ s.built → origin = url) ∧
      ∀ writer, (packageDirectory machine url, writer) ∈ s.written → writer = url

/-- The call finds no checkout of another URL in its directory, or ends before its tests. -/
def OwnsCheckout (machine : Machine) (commands : Commands) (url : Url) (s : Collection) : Prop :=
  s.checkouts (packageDirectory machine url) = none ∨
    s.checkouts (packageDirectory machine url) = some url ∨
      commands.hasPkgbuild = false ∨ commands.buildSucceeds = false ∨ commands.hasSource = false

/-- Every call of `process_package` in the run owns the checkout it finds. -/
def OwnedRun (machine : Machine) (oracle : Nat → Commands) (s : Collection) (text : List Char) :
    Prop :=
  ∀ visit ∈ delivered machine oracle s text, ∀ url, urlOf machine visit.2 = some url →
    (grepProcessed (oracle visit.1.iterations) url visit.1.collection).1 = false →
      OwnsCheckout machine (oracle visit.1.iterations) url visit.1.collection

/-- Runs in which every call owns the checkout it finds. -/
inductive OwnedRuns (machine : Machine) : Collection → Prop where
  | start : OwnedRuns machine .empty
  | run (oracle : Nat → Commands) (s : Collection) (text : List Char) (h : OwnedRuns machine s)
      (howned : OwnedRun machine oracle s text) :
      OwnedRuns machine (mainLoop machine oracle s text)

section Ownership

variable {machine : Machine} {commands : Commands}

/-- What is built, written and processed is of the URL that its checkout comes from. -/
structure Owned (machine : Machine) (s : Collection) : Prop where
  built : ∀ url origin, (url, origin) ∈ s.built → origin = url
  written : ∀ directory writer, (directory, writer) ∈ s.written →
    s.checkouts directory = some writer
  processed : ∀ url ∈ s.processed.lines, url ≠ [] →
    s.checkouts (packageDirectory machine url) = some url
  ended : s.processed.rest = []

theorem Owned.separate {s : Collection} (h : Owned machine s) : Separate machine s := by
  intro url hurl hne
  refine ⟨h.built url, ?_⟩
  intro writer hwriter
  have hcheckout := h.written _ writer hwriter
  rw [h.processed url hurl hne] at hcheckout
  exact (Option.some.inj hcheckout).symm

/-- No checkout goes away or changes its origin. -/
def KeepsCheckouts (s after : Collection) : Prop :=
  ∀ directory origin, s.checkouts directory = some origin → after.checkouts directory = some origin

/-- What a call can do to the files it shares. -/
inductive Call (machine : Machine) (commands : Commands) (url : Url) (s after : Collection) :
    Prop where
  /-- It ends before the tests. -/
  | early (hbuilt : after.built = s.built) (hwritten : after.written = s.written)
      (hprocessed : after.processed = s.processed) (hkept : KeepsCheckouts s after) :
      Call machine commands url s after
  /-- It runs the tests. -/
  | tested (origin : Url)
      (horigin : origin = (s.checkouts (packageDirectory machine url)).getD url)
      (hbuilt : after.built = s.built ++ [(url, origin)])
      (hwritten : after.written = s.written ++ [(packageDirectory machine url, url)])
      (hprocessed : after.processed = s.processed ∨
        after.processed = s.processed.appendAll (echoed url))
      (hkept : KeepsCheckouts s after)
      (hcheckout : after.checkouts (packageDirectory machine url) = some origin)
      (hpkgbuild : commands.hasPkgbuild = true) (hbuild : commands.buildSucceeds = true)
      (hsource : commands.hasSource = true) : Call machine commands url s after

/-- A checkout is cloned only where there is none. -/
theorem keepsCheckouts_update {s after : Collection} {directory : PackageName} {origin : Url}
    (horigin : s.checkouts directory = none ∨ s.checkouts directory = some origin)
    (hcheckouts : after.checkouts = Function.update s.checkouts directory (some origin)) :
    KeepsCheckouts s after := by
  intro other origin' hother
  rw [hcheckouts]
  by_cases heq : other = directory
  · rw [heq] at hother ⊢
    rcases horigin with hnone | hsome
    · rw [hnone] at hother
      cases hother
    · rw [Function.update_self, ← hsome, hother]
  · rw [Function.update_of_ne heq, hother]

theorem origin_cases (s : Collection) (directory : PackageName) (url : Url) :
    s.checkouts directory = none ∨
      s.checkouts directory = some ((s.checkouts directory).getD url) := by
  cases s.checkouts directory with
  | none => exact Or.inl rfl
  | some origin => exact Or.inr rfl

theorem call_processPackage (machine : Machine) (commands : Commands) (url : Url)
    (s : Collection) :
    Call machine commands url s (processPackage machine commands url s).collection := by
  have horigin := origin_cases s (packageDirectory machine url) url
  unfold processPackage
  simp only
  split
  · rename_i hclone
    refine .early rfl rfl rfl ?_
    split
    · exact keepsCheckouts_update (Or.inl hclone.1) rfl
    · exact fun _ _ h => h
  · split
    · exact .early rfl rfl rfl (keepsCheckouts_update horigin rfl)
    · rename_i hpkgbuild
      split
      · exact .early rfl rfl rfl (keepsCheckouts_update horigin rfl)
      · rename_i hbuild
        rw [not_or, not_not, not_not] at hbuild
        rw [not_not] at hpkgbuild
        split
        · exact .tested _ rfl rfl rfl (Or.inl rfl) (keepsCheckouts_update horigin rfl)
            (Function.update_self _ _ _) hpkgbuild hbuild.1 hbuild.2
        · exact .tested _ rfl rfl rfl (Or.inr rfl) (keepsCheckouts_update horigin rfl)
            (Function.update_self _ _ _) hpkgbuild hbuild.1 hbuild.2

theorem Owned.of_kept {s after : Collection} (h : Owned machine s)
    (hbuilt : after.built = s.built) (hwritten : after.written = s.written)
    (hprocessed : after.processed = s.processed) (hkept : KeepsCheckouts s after) :
    Owned machine after where
  built := by
    rw [hbuilt]
    exact h.built
  written := by
    intro directory writer hmem
    rw [hwritten] at hmem
    exact hkept directory writer (h.written directory writer hmem)
  processed := by
    intro url hmem hne
    rw [hprocessed] at hmem
    exact hkept _ url (h.processed url hmem hne)
  ended := by
    rw [hprocessed]
    exact h.ended

theorem Owned.processPackage {url : Url} {s : Collection} (h : Owned machine s)
    (howns : OwnsCheckout machine commands url s) :
    Owned machine (processPackage machine commands url s).collection := by
  have hcall := call_processPackage machine commands url s
  generalize (Collect.processPackage machine commands url s).collection = after at hcall
  cases hcall with
  | early hbuilt hwritten hprocessed hkept => exact h.of_kept hbuilt hwritten hprocessed hkept
  | tested origin horigin hbuilt hwritten hprocessed hkept hcheckout hpkgbuild hbuild hsource =>
      -- the tests were run in a checkout of the URL itself
      have hself : origin = url := by
        rw [horigin]
        rcases howns with hnone | hsome | hfails | hfails | hfails
        · rw [hnone]
          rfl
        · rw [hsome]
          rfl
        · rw [hpkgbuild] at hfails
          cases hfails
        · rw [hbuild] at hfails
          cases hfails
        · rw [hsource] at hfails
          cases hfails
      subst hself
      refine ⟨?_, ?_, ?_, ?_⟩
      · intro url' origin' hmem
        rw [hbuilt] at hmem
        rcases List.mem_append.mp hmem with hold | hnew
        · exact h.built url' origin' hold
        · cases List.mem_singleton.mp hnew
          rfl
      · intro directory writer hmem
        rw [hwritten] at hmem
        rcases List.mem_append.mp hmem with hold | hnew
        · exact hkept directory writer (h.written directory writer hold)
        · cases List.mem_singleton.mp hnew
          exact hcheckout
      · intro url' hmem hne
        have hcase : url' ∈ s.processed.lines ∨ url' = origin := by
          rcases hprocessed with hsame | hmore
          · exact Or.inl (hsame ▸ hmem)
          · rw [hmore, LineFile.lines_appendAll h.ended] at hmem
            rcases List.mem_append.mp hmem with hold | hnew
            · exact Or.inl hold
            · exact Or.inr ((mem_echoed hne).mp hnew).1
        rcases hcase with hold | rfl
        · exact hkept _ url' (h.processed url' hold hne)
        · exact hcheckout
      · rcases hprocessed with hsame | hmore
        · rw [hsame]
          exact h.ended
        · rw [hmore]
          exact LineFile.rest_appendAll_of_ended h.ended _

theorem Owned.iterate {url : Url} {s : Collection} (h : Owned machine s)
    (howns : (grepProcessed commands url s).1 = false → OwnsCheckout machine commands url s) :
    Owned machine (iterate machine commands url s).1 := by
  unfold Collect.iterate
  simp only
  split
  · exact h
  · rename_i hgrep
    rw [Bool.not_eq_true] at hgrep
    have hcall := h.processPackage (howns hgrep)
    split
    · exact hcall
    · exact hcall.of_kept rfl rfl rfl fun _ _ h => h

/-- An owned run keeps ownership, at its end and whenever it reads a line. -/
theorem Owned.run {oracle : Nat → Commands} {s : Collection} {text : List Char}
    (h : Owned machine s) (howned : OwnedRun machine oracle s text) :
    Owned machine (mainLoop machine oracle s text) ∧
      ∀ visit ∈ delivered machine oracle s text, Owned machine visit.1.collection := by
  have hresume : Owned machine s.resume := h.of_kept rfl rfl rfl fun _ _ h => h
  have hrun := ReadLoop.run_induction (loopBody machine oracle)
    (fun s visits s' => Owned machine s.collection →
      (∀ visit ∈ visits, ∀ url, urlOf machine visit.2 = some url →
        (grepProcessed (oracle visit.1.iterations) url visit.1.collection).1 = false →
          OwnsCheckout machine (oracle visit.1.iterations) url visit.1.collection) →
      Owned machine s'.collection ∧ ∀ visit ∈ visits, Owned machine visit.1.collection) ?_ ?_
    { collection := s.resume, iterations := 0 } text
  · exact hrun hresume howned
  · intro s hs _
    refine ⟨hs, ?_⟩
    intro visit hvisit
    cases hvisit
  · intro s line rest s' ih hs howns
    have hnext : Owned machine (loopBody machine oracle s line).1.collection := by
      unfold loopBody
      split
      · exact hs
      · rename_i url hurl
        exact hs.iterate (howns (s, line) List.mem_cons_self url hurl)
    obtain ⟨hend, hrest⟩ := ih hnext fun visit hvisit =>
      howns visit (List.mem_cons_of_mem _ hvisit)
    refine ⟨hend, ?_⟩
    intro visit hvisit
    rcases List.mem_cons.mp hvisit with rfl | hlater
    · exact hs
    · exact hrest visit hlater

theorem owned_empty (machine : Machine) : Owned machine .empty where
  built := by
    intro url origin hmem
    cases hmem
  written := by
    intro directory writer hmem
    cases hmem
  processed := by
    intro url hmem
    cases hmem
  ended := rfl

theorem OwnedRuns.owned {s : Collection} (h : OwnedRuns machine s) : Owned machine s := by
  induction h with
  | start => exact owned_empty machine
  | run oracle s text _ howned ih => exact (ih.run howned).1

end Ownership

/-- When every call owns the checkout it finds, packages are separate after every run and
whenever a run reads a line. -/
theorem separate_of_ownedRuns (machine : Machine) (s : Collection) (h : OwnedRuns machine s) :
    Separate machine s ∧ ∀ oracle text, OwnedRun machine oracle s text →
      ∀ visit ∈ delivered machine oracle s text, Separate machine visit.1.collection := by
  refine ⟨h.owned.separate, ?_⟩
  intro oracle text howned visit hvisit
  exact ((h.owned.run howned).2 visit hvisit).separate

/-- Commands that all succeed and read nothing. -/
def steadyCommands : Commands := { greedyCommands with testReads := 0 }

/-- The state before the first line. -/
def startState : LoopState := { collection := Collection.empty.resume, iterations := 0 }

/-- The state after a line whose commands are steady. -/
def afterLine (s : LoopState) (line : List Char) : LoopState :=
  (loopBody sampleMachine (fun _ => steadyCommands) s line).1

/-- A run over two lines. -/
theorem steady_two_lines {first second : Url} {text rest : List Char}
    (hfirst : ReadLoop.readLine text = some (first, rest))
    (hsecond : ReadLoop.readLine rest = some (second, []))
    (hreads : (loopBody sampleMachine (fun _ => steadyCommands) startState first).2 = 0) :
    delivered sampleMachine (fun _ => steadyCommands) .empty text =
        [(startState, first), (afterLine startState first, second)] ∧
      mainLoop sampleMachine (fun _ => steadyCommands) .empty text =
        (afterLine (afterLine startState first) second).collection := by
  have hend : ReadLoop.readLine [] = none := by decide
  rw [delivered, mainLoop, ReadLoop.visits_of_some hfirst, ReadLoop.run_of_some hfirst]
  change (_, _) :: ReadLoop.visits _ (afterLine startState first) _ = _ ∧
    (ReadLoop.run _ (afterLine startState first) _).collection = _
  rw [show { collection := Collection.empty.resume, iterations := 0 } = startState from rfl, hreads,
    List.drop_zero, ReadLoop.visits_of_some hsecond, ReadLoop.run_of_some hsecond, List.drop_nil,
    ReadLoop.visits_of_none hend, ReadLoop.run_of_none hend]
  exact ⟨rfl, rfl⟩

/-- The sample list has two packages with different names. -/
theorem ownedRun_sampleList :
    OwnedRun sampleMachine (fun _ => steadyCommands) .empty sampleList := by
  have hfirst : ReadLoop.readLine sampleList = some (firstUrl, secondUrl ++ ['\n']) := by decide
  have hsecond : ReadLoop.readLine (secondUrl ++ ['\n']) = some (secondUrl, []) := by decide
  intro visit hvisit url hurl _
  rw [(steady_two_lines hfirst hsecond (by decide)).1] at hvisit
  rcases List.mem_cons.mp hvisit with rfl | hrest
  · exact Or.inl rfl
  · rw [List.mem_singleton.mp hrest] at hurl ⊢
    have hself : urlOf sampleMachine secondUrl = some secondUrl := by decide
    obtain rfl : secondUrl = url := Option.some.inj (hself.symm.trans hurl)
    left
    decide

theorem separate_of_ownedRuns_sample :
    ∃ s, OwnedRuns sampleMachine s ∧ Separate sampleMachine s := by
  have hruns := OwnedRuns.run _ _ _ .start ownedRun_sampleList
  exact ⟨_, hruns, (separate_of_ownedRuns sampleMachine _ hruns).1⟩

/-- The same package in the user repository and in the Arch repository. -/
def userUrl : Url := "https://aur.archlinux.org/foo.git".toList

def archUrl : Url := "https://gitlab.archlinux.org/archlinux/packaging/packages/foo.git".toList

def sharedList : List Char := userUrl ++ '\n' :: (archUrl ++ ['\n'])

/-- The second URL is processed in the checkout of the first. -/
theorem not_separate_shared : ∃ s, Runs sampleMachine s ∧ ¬ Separate sampleMachine s := by
  have hfirst : ReadLoop.readLine sharedList = some (userUrl, archUrl ++ ['\n']) := by decide
  have hsecond : ReadLoop.readLine (archUrl ++ ['\n']) = some (archUrl, []) := by decide
  refine ⟨_, .run (fun _ => steadyCommands) _ sharedList .start, ?_⟩
  intro h
  rw [(steady_two_lines hfirst hsecond (by decide)).2] at h
  have hfiles : (afterLine (afterLine startState userUrl) archUrl).collection.processed.lines =
        [userUrl, archUrl] ∧
      (afterLine (afterLine startState userUrl) archUrl).collection.built =
        [(userUrl, userUrl), (archUrl, userUrl)] := by decide +kernel
  have horigin : userUrl = archUrl := by
    apply (h archUrl _ (by decide)).1 userUrl
    · rw [hfiles.2]
      exact List.mem_cons_of_mem _ List.mem_cons_self
    · rw [hfiles.1]
      exact List.mem_cons_of_mem _ List.mem_cons_self
  exact absurd horigin (by decide)

end Icflow.Collect
