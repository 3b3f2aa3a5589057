import Icflow.Static.Resume

set_option autoImplicit false

/-!
# The map and the store of ELF files

A run empties `elf_map.txt` when it starts, and `elf_outputs` keeps what earlier runs
have copied.  A run writes one line for each file it copies, as long as no two jobs that
meet copy into one directory; so after a run the map describes the store exactly when
the store was empty at its start.
-/

namespace Icflow.Static

open Icflow.Foundation Icflow.Collect

variable {config : Config} {run : Run} {initial s s' : Store} {state state' : State}
  {events more : List Event} {elf : Elf}

/-- What was copied and lies below `elf_outputs`. -/
def Stored (s : Store) (elf : Elf) : Prop := elf ∈ s.elves ∧ elf.directory ≠ "..".toList

instance instDecidableStored (s : Store) (elf : Elf) : Decidable (Stored s elf) :=
  inferInstanceAs (Decidable (elf ∈ s.elves ∧ elf.directory ≠ "..".toList))

/-- `elf_map.txt` has one line for each file of `elf_outputs`, and no other line. -/
def Describes (s : Store) : Prop :=
  ∀ elf, (s.elfMap.map MapLine.elf).count elf = if Stored s elf then 1 else 0

/-- The name is that of a directory of the section. -/
def Ordinary (config : Config) (url : Url) : Prop :=
  climbs (packageName config.machine url) = false ∧
    packageName config.machine url ≠ "/".toList

theorem outDirectory_of_ordinary {url : Url} (h : Ordinary config url) :
    outDirectory (packageName config.machine url) = packageName config.machine url := by
  have hdot : packageName config.machine url ≠ ".".toList := by
    intro heq
    have hclimbs := h.1
    rw [heq] at hclimbs
    cases hclimbs
  exact if_neg (not_or_intro hdot h.2)

theorem outDirectory_ne_of_ordinary {url : Url} (h : Ordinary config url) :
    outDirectory (packageName config.machine url) ≠ "..".toList := by
  rw [outDirectory_of_ordinary h]
  intro heq
  have hclimbs := h.1
  rw [heq] at hclimbs
  cases hclimbs

section Jobs

/-- The file that the job has found a name for and not copied. -/
def BuildJob.picked (job : BuildJob) : Option Elf :=
  match job.phase with
  | .picked _ elf _ => some elf
  | .starting | .building | .copying _ | .copied .. | .cleaning => none

/-- The file that the job has copied and not entered in the map. -/
def BuildJob.unmapped (job : BuildJob) : List Elf :=
  match job.phase with
  | .copied _ elf _ => [elf]
  | .starting | .building | .copying _ | .picked .. | .cleaning => []

theorem CloneStep.elves {job : CloneJob} {next : Option CloneJob}
    (h : CloneStep config s job more s' next) : s'.elves = s.elves ∧ s'.elfMap = s.elfMap := by
  have habandoned : ∀ name removes, (abandoned name removes s).elves = s.elves ∧
      (abandoned name removes s).elfMap = s.elfMap := by
    intro name removes
    unfold abandoned
    split <;> exact ⟨rfl, rfl⟩
  cases h with
  | retry url counter retries made removes _ _ => exact habandoned _ removes
  | giveUp url counter retries made removes _ _ => exact habandoned _ removes
  | fail url counter retries made removes _ => exact habandoned _ removes
  | _ => exact ⟨rfl, rfl⟩

theorem cleaned_elves (name : PackageName) (s : Store) :
    (cleaned name s).elves = s.elves ∧ (cleaned name s).elfMap = s.elfMap := by
  unfold cleaned
  split
  · exact ⟨rfl, rfl⟩
  · split <;> exact ⟨rfl, rfl⟩

/-- What a step of a build does to the store and the map. -/
inductive ElfEffect (config : Config) (s : Store) (job : BuildJob) (s' : Store)
    (next : Option BuildJob) : Prop where
  /-- neither changes; a name may have been picked -/
  | none (helves : s'.elves = s.elves) (hmap : s'.elfMap = s.elfMap) (hjob : job.unmapped = [])
      (hnext : next.toList.flatMap BuildJob.unmapped = [])
      (hpicked : ∀ job' ∈ next, ∀ elf ∈ job'.picked, elf ∉ s.elves ∧
        elf.directory = outDirectory (packageName config.machine job.url))
  | copied (elf : Elf) (hpicked : job.picked = some elf) (helves : s'.elves = insert elf s.elves)
      (hmap : s'.elfMap = s.elfMap) (hjob : job.unmapped = [])
      (hnext : next.toList.flatMap BuildJob.unmapped = [elf])
      (hnone : ∀ job' ∈ next, job'.picked = none)
  | mapped (exe : List Char) (elf : Elf) (helves : s'.elves = s.elves)
      (hmap : s'.elfMap = s.elfMap ++ [⟨exe, elf⟩]) (hjob : job.unmapped = [elf])
      (hnext : next.toList.flatMap BuildJob.unmapped = [])
      (hnone : ∀ job' ∈ next, job'.picked = none)

theorem BuildStep.elfEffect {job : BuildJob} {next : Option BuildJob}
    (h : BuildStep config s job more s' next) : ElfEffect config s job s' next := by
  cases h with
  | pick url exe exes i elf helf hfree _ =>
      refine .none rfl rfl rfl rfl ?_
      intro job' hjob' picked hpicked
      cases hjob'
      cases hpicked
      exact ⟨hfree, congrArg Elf.directory helf⟩
  | copy url exe elf exes =>
      exact .copied elf rfl rfl rfl rfl rfl fun job' hjob' => by cases hjob'; rfl
  | map url exe elf exes =>
      exact .mapped exe elf rfl rfl rfl rfl fun job' hjob' => by cases hjob'; rfl
  | clean url =>
      obtain ⟨helves, hmap⟩ := cleaned_elves (packageName config.machine url) s
      exact .none helves hmap rfl rfl fun _ hjob' => nomatch hjob'
  | refuse url _ _ => exact .none rfl rfl rfl rfl fun _ hjob' => nomatch hjob'
  | _ =>
      refine .none rfl rfl rfl rfl ?_
      intro job' hjob' picked hpicked
      cases hjob'
      cases hpicked

end Jobs

section Mapped

/-- The build jobs that run. -/
def State.buildJobs : State → List BuildJob
  | .building _ _ pool => pool.running
  | .reading .. | .cloning .. | .finished _ => []

/-- The files that a job has copied and not entered in the map. -/
def State.unmapped (state : State) : List Elf := state.buildJobs.flatMap BuildJob.unmapped

/-- The map, with what is about to be entered, has one line for each file that the run has added
to those that were there `before`. -/
structure Mapped (config : Config) (before : Finset Elf) (state : State) : Prop where
  kept : before ⊆ state.store.elves
  counts : ∀ elf, (state.store.elfMap.map MapLine.elf ++ state.unmapped).count elf =
    if elf ∈ state.store.elves ∧ elf ∉ before then 1 else 0
  picked : ∀ job ∈ state.buildJobs, ∀ elf ∈ job.picked, elf ∉ state.store.elves ∧
    elf.directory = outDirectory (packageName config.machine job.url)
  inside : ∀ elf ∈ state.store.elves, elf ∉ before → elf.directory ≠ "..".toList

variable {before : Finset Elf}

/-- A step that touches neither the store nor the map nor the copying jobs. -/
theorem Mapped.same (h : Mapped config before state)
    (helves : state'.store.elves = state.store.elves)
    (hmap : state'.store.elfMap = state.store.elfMap)
    (hunmapped : state'.unmapped = state.unmapped)
    (hpicked : ∀ job ∈ state'.buildJobs, ∀ elf ∈ job.picked, elf ∉ state.store.elves ∧
      elf.directory = outDirectory (packageName config.machine job.url)) :
    Mapped config before state' where
  kept := helves ▸ h.kept
  counts := by
    rw [helves, hmap, hunmapped]
    exact h.counts
  picked := by
    rw [helves]
    exact hpicked
  inside := helves ▸ h.inside

/-- A file is copied. -/
theorem Mapped.copy (h : Mapped config before state) (hfresh : elf ∉ state.store.elves)
    (hdirectory : elf.directory ≠ "..".toList)
    (helves : state'.store.elves = insert elf state.store.elves)
    (hmap : state'.store.elfMap = state.store.elfMap)
    (hunmapped : ∀ other, state'.unmapped.count other =
      state.unmapped.count other + if other = elf then 1 else 0)
    (hpicked : ∀ job ∈ state'.buildJobs, ∀ other ∈ job.picked, other ∉ state.store.elves ∧
      other ≠ elf ∧ other.directory = outDirectory (packageName config.machine job.url)) :
    Mapped config before state' where
  kept := by
    rw [helves]
    exact h.kept.trans (Finset.subset_insert _ _)
  counts := by
    intro other
    have hcounts := h.counts other
    rw [List.count_append] at hcounts
    rw [List.count_append, hmap, hunmapped, helves, ← Nat.add_assoc, hcounts]
    rcases eq_or_ne other elf with rfl | hne
    · have hbefore : other ∉ before := fun hmem => hfresh (h.kept hmem)
      simp [hfresh, hbefore]
    · simp [hne]
  picked := by
    intro job hjob other hother
    obtain ⟨hmem, hne, hdirectory⟩ := hpicked job hjob other hother
    rw [helves, Finset.mem_insert, not_or]
    exact ⟨⟨hne, hmem⟩, hdirectory⟩
  inside := by
    intro other hother hbefore
    rw [helves, Finset.mem_insert] at hother
    rcases hother with rfl | hold
    · exact hdirectory
    · exact h.inside other hold hbefore

/-- A file is entered in the map. -/
theorem Mapped.map {exe : List Char} (h : Mapped config before state)
    (helves : state'.store.elves = state.store.elves)
    (hmap : state'.store.elfMap = state.store.elfMap ++ [⟨exe, elf⟩])
    (hunmapped : ∀ other, state.unmapped.count other =
      state'.unmapped.count other + if other = elf then 1 else 0)
    (hpicked : ∀ job ∈ state'.buildJobs, ∀ elf ∈ job.picked, elf ∉ state.store.elves ∧
      elf.directory = outDirectory (packageName config.machine job.url)) :
    Mapped config before state' where
  kept := helves ▸ h.kept
  counts := by
    intro other
    have hcounts := h.counts other
    have hline : (([⟨exe, elf⟩] : List MapLine).map MapLine.elf).count other =
        if other = elf then 1 else 0 := by
      rcases eq_or_ne other elf with rfl | hne
      · simp
      · simp [hne, hne.symm]
    rw [List.count_append, hunmapped] at hcounts
    rw [List.count_append, hmap, List.map_append, List.count_append, hline, helves, ← hcounts]
    omega
  picked := by
    rw [helves]
    exact hpicked
  inside := helves ▸ h.inside

section Build

variable {totalCount : Nat} {urls : List Url} {pool pool' : JobPool.State Store Url BuildJob}

/-- Two ordinary names have two directories below `ELF_OUTPUT_DIR`. -/
theorem outDirectory_ne {url other : Url} (hurl : Ordinary config url)
    (hother : Ordinary config other)
    (hne : packageName config.machine other ≠ packageName config.machine url) :
    outDirectory (packageName config.machine other) ≠
      outDirectory (packageName config.machine url) := by
  rw [outDirectory_of_ordinary hurl, outDirectory_of_ordinary hother]
  exact hne

theorem Mapped.work {earlier later : List BuildJob} {job : BuildJob} {next : Option BuildJob}
    (h : Mapped config before (.building totalCount urls pool))
    (hrunning : pool.running = earlier ++ job :: later)
    (hordinary : ∀ job ∈ pool.running, Ordinary config job.url)
    (hapart : ∀ other ∈ earlier ++ later,
      packageName config.machine other.url ≠ packageName config.machine job.url)
    (hurl : ∀ job' ∈ next, job'.url = job.url)
    (heffect : ElfEffect config pool.store job s' next) :
    Mapped config before (.building totalCount urls
      ⟨s', pool.queue, pool.admitted, earlier ++ next.toList ++ later⟩) := by
  have hjob : job ∈ pool.running := by
    rw [hrunning]
    exact List.mem_append_right _ List.mem_cons_self
  have hold : ∀ other ∈ earlier ++ later, other ∈ pool.running := by
    intro other hother
    rw [hrunning]
    exact List.mem_append.mpr ((List.mem_append.mp hother).imp id (List.mem_cons_of_mem _))
  have hmem : ∀ other ∈ earlier ++ next.toList ++ later,
      other ∈ earlier ++ later ∨ other ∈ next := by
    intro other hother
    simp only [List.mem_append, Option.mem_toList] at hother ⊢
    tauto
  have hsplit : (State.building totalCount urls pool).unmapped =
      earlier.flatMap BuildJob.unmapped ++ (job.unmapped ++ later.flatMap BuildJob.unmapped) := by
    simp [State.unmapped, State.buildJobs, hrunning]
  have hsplit' : (State.building totalCount urls
      ⟨s', pool.queue, pool.admitted, earlier ++ next.toList ++ later⟩).unmapped =
      earlier.flatMap BuildJob.unmapped ++
        (next.toList.flatMap BuildJob.unmapped ++ later.flatMap BuildJob.unmapped) := by
    simp [State.unmapped, State.buildJobs]
  cases heffect with
  | none helves hmap hjobUnmapped hnext hpicked =>
      refine h.same helves hmap ?_ ?_
      · rw [hsplit, hsplit', hjobUnmapped, hnext]
      · intro other hother picked hpick
        rcases hmem other hother with hother | hother
        · exact h.picked other (hold other hother) picked hpick
        · rw [hurl other hother]
          exact hpicked other hother picked hpick
  | copied elf hpicked helves hmap hjobUnmapped hnext hnone =>
      obtain ⟨hfresh, hdirectory⟩ := h.picked job hjob elf hpicked
      refine h.copy hfresh ?_ helves hmap ?_ ?_
      · rw [hdirectory]
        exact outDirectory_ne_of_ordinary (hordinary job hjob)
      · intro other
        rw [hsplit, hsplit', hjobUnmapped, hnext]
        rcases eq_or_ne other elf with rfl | hne
        · simp
          omega
        · simp [hne, hne.symm]
      · intro other hother picked hpick
        rcases hmem other hother with hother | hother
        · obtain ⟨hfree, hwhere⟩ := h.picked other (hold other hother) picked hpick
          refine ⟨hfree, ?_, hwhere⟩
          rintro rfl
          rw [hdirectory] at hwhere
          exact outDirectory_ne (hordinary job hjob) (hordinary other (hold other hother))
            (hapart other hother) hwhere.symm
        · rw [hnone other hother] at hpick
          cases hpick
  | mapped exe elf helves hmap hjobUnmapped hnext hnone =>
      refine h.map helves hmap ?_ ?_
      · intro other
        rw [hsplit, hsplit', hjobUnmapped, hnext]
        rcases eq_or_ne other elf with rfl | hne
        · simp
          omega
        · simp [hne, hne.symm]
      · intro other hother picked hpick
        rcases hmem other hother with hother | hother
        · exact h.picked other (hold other hother) picked hpick
        · rw [hnone other hother] at hpick
          cases hpick

theorem Mapped.build (h : Mapped config before (.building totalCount urls pool))
    (hordinary : ∀ url ∈ pool.keys BuildJob.url id, Ordinary config url)
    (hapart : pool.Apart (fun job => packageName config.machine job.url)
      (packageName config.machine) config.maxJobs)
    (hpool : JobPool.Step (buildPhase config) config.maxJobs pool more pool') :
    Mapped config before (.building totalCount urls pool') := by
  cases hpool with
  | skip entry rest _ _ _ => exact h.same rfl rfl rfl h.picked
  | accept entry rest _ _ _ => exact h.same rfl rfl rfl h.picked
  | start entry _ _ =>
      refine h.same rfl rfl ?_ ?_
      · have hspawn : BuildJob.unmapped ((buildPhase config).spawn entry) = [] := rfl
        simp [State.unmapped, State.buildJobs, hspawn]
      · intro job hjob elf helf
        rcases List.mem_append.mp hjob with hold | hnew
        · exact h.picked job hold elf helf
        · rw [List.mem_singleton.mp hnew] at helf
          cases helf
  | work earlier job later _ store next hrunning hwork =>
      refine h.work hrunning ?_ ?_ ?_ (BuildStep.elfEffect hwork)
      · exact fun job hjob => hordinary job.url (mem_keys_of_running hjob)
      · exact fun other hother => hapart.ne_of_mem hrunning hother
      · intro job' hjob'
        cases hjob'
        exact BuildStep.url hwork

end Build

theorem mapped_of_clone {totalCount : Nat} {urls batch : List Url}
    {pool pool' : JobPool.State Store Url CloneJob}
    (h : Mapped config before (.cloning totalCount urls batch pool))
    (hpool : JobPool.Step (clonePhase config) config.maxJobs pool more pool') :
    Mapped config before (.cloning totalCount urls batch pool') := by
  cases hpool with
  | skip entry rest _ _ _ => exact h.same rfl rfl rfl h.picked
  | accept entry rest _ _ _ => exact h.same rfl rfl rfl h.picked
  | start entry _ _ => exact h.same rfl rfl rfl h.picked
  | work earlier job later _ store next _ hwork =>
      obtain ⟨helves, hmap⟩ := CloneStep.elves hwork
      exact h.same helves hmap rfl h.picked

/-- A step of the script keeps the map in step with what the run adds. -/
theorem Step.mapped (h : Step config run state more state') (hlist : FromList run state)
    (hseparate : Separate config state)
    (hnames : ∀ url ∈ mapfile run.list.text, Ordinary config url)
    (hmapped : Mapped config before state) : Mapped config before state' := by
  cases h with
  | clone totalCount urls batch _ pool pool' hpool => exact mapped_of_clone hmapped hpool
  | build totalCount urls _ pool pool' hpool =>
      exact hmapped.build (fun url hurl => hnames url (hlist.2 hurl)) hseparate hpool
  | built totalCount urls pool hdone =>
      refine hmapped.same rfl rfl ?_ fun _ hjob => nomatch hjob
      rw [State.unmapped, State.unmapped, State.buildJobs, State.buildJobs, hdone.running]
  | _ => exact hmapped.same rfl rfl rfl fun _ hjob => nomatch hjob

theorem mapped_initial (config : Config) (run : Run) (initial : Store) :
    Mapped config initial.elves (State.initial run initial) where
  kept := Finset.Subset.refl _
  counts := by
    intro elf
    have hnew : ¬ (elf ∈ (State.initial run initial).store.elves ∧ elf ∉ initial.elves) :=
      fun h => h.2 h.1
    rw [if_neg hnew]
    rfl
  picked := fun _ hjob => nomatch hjob
  inside := fun _ hmem hnew => absurd hmem hnew

/-- In all states of a run the map is in step with what the run has added to the store. -/
theorem Executes.mapped (h : Executes config run initial events state)
    (hbatches : ∀ batch ∈ batches run initial, KeptApart config batch)
    (hnames : ∀ url ∈ mapfile run.list.text, Ordinary config url) :
    Mapped config initial.elves state := by
  induction h with
  | refl => exact mapped_initial config run initial
  | tail htrace hstep ih =>
      exact hstep.mapped (Executes.fromList htrace) (Executes.separate htrace hbatches) hnames ih

/-- After a run the map describes the store exactly when it was empty before. -/
theorem Mapped.describes_finished (h : Mapped config initial.elves (.finished s)) :
    Describes s ↔ ∀ elf, ¬ Stored initial elf := by
  have hcounts : ∀ elf, (s.elfMap.map MapLine.elf).count elf =
      if elf ∈ s.elves ∧ elf ∉ initial.elves then 1 else 0 := by
    intro elf
    have hcount := h.counts elf
    rw [State.unmapped, State.buildJobs, List.flatMap_nil, List.append_nil] at hcount
    exact hcount
  constructor
  · intro hdescribes elf hold
    have hcount := hdescribes elf
    have hkept : Stored s elf := ⟨h.kept hold.1, hold.2⟩
    rw [hcounts, if_pos hkept, if_neg fun hnew => hnew.2 hold.1] at hcount
    cases hcount
  · intro hempty elf
    rw [hcounts]
    have hiff : (elf ∈ s.elves ∧ elf ∉ initial.elves) ↔ Stored s elf := by
      constructor
      · rintro ⟨hmem, hnew⟩
        exact ⟨hmem, h.inside elf hmem hnew⟩
      · rintro ⟨hmem, hdirectory⟩
        exact ⟨hmem, fun hold => hempty elf ⟨hold, hdirectory⟩⟩
    rw [if_congr hiff rfl rfl]

end Mapped

section Runs

/-- Completed runs over a fresh root, with the last run and the files it started with.  The
runs may work in different sections. -/
inductive CompletedRuns (config : Config) : Option (Run × Store) → Store → Prop where
  | fresh : CompletedRuns config none .empty
  | run {last : Option (Run × Store)} {s : Store} {run : Run} {events : List Event} {s' : Store}
      (directories : Finset PackageName) (h : CompletedRuns config last s)
      (hrun : Executes config run { s with directories := directories } events (.finished s')) :
      CompletedRuns config (some (run, s)) s'

/-- After any sequence of runs the map describes the store exactly when the store was empty at
the start of the last one, whose jobs are kept apart and whose names are ordinary. -/
theorem describes_iff {last : Option (Run × Store)} (h : CompletedRuns config last s)
    (hnames : ∀ run files, last = some (run, files) → ∀ url ∈ mapfile run.list.text,
      Ordinary config url)
    (hbatches : ∀ run files, last = some (run, files) → ∀ batch ∈ batches run files,
      KeptApart config batch) :
    Describes s ↔ ∀ run files, last = some (run, files) → ∀ elf, ¬ Stored files elf := by
  cases h with
  | fresh =>
      refine iff_of_true (fun elf => ?_) fun _ _ heq => nomatch heq
      rw [if_neg fun h : Stored .empty elf => nomatch h.1]
      rfl
  | @run last files run events s' directories _ hrun =>
      have hmapped := hrun.mapped (hbatches run files rfl) (hnames run files rfl)
      refine hmapped.describes_finished.trans ⟨fun hempty run' files' heq => ?_, fun hempty => ?_⟩
      · cases heq
        exact hempty
      · exact hempty run files rfl

end Runs

section Sample

def sampleExe : List Char := "/r/extra_packages/p/pkg/p/usr/bin/p".toList

def sampleElf : Elf := ⟨"p".toList, "p".toList⟩

/-- The clone and the build succeed, and one executable is copied. -/
theorem single_collected : ∃ events s, Executes sampleConfig singleRun .empty events (.finished s) ∧
    s.elves = {sampleElf} ∧ s.progress = [sampleUrl] := by
  have hthere : present recordedStore (packageName sampleConfig.machine sampleUrl) = true :=
    present_of_mem (Finset.mem_insert_self _ _)
  have hbuild := (BuildStep.enter recordedStore sampleUrl (.inl hthere)).more
    ((BuildStep.succeed _ sampleUrl [sampleExe] (by decide)).more
      ((BuildStep.pick _ sampleUrl sampleExe [] 0 sampleElf (by decide) (Finset.notMem_empty _)
        (fun j hj => absurd hj (Nat.not_lt_zero j))).more
        ((BuildStep.copy _ sampleUrl sampleExe sampleElf []).more
          ((BuildStep.map _ sampleUrl sampleExe sampleElf []).more
            ((BuildStep.finish _ sampleUrl).more (BuildStep.clean _ sampleUrl).ends)))))
  have hpool := hbuild.trace_entry hthere [] [] (show 0 < sampleConfig.maxJobs by decide)
  have hbuilding := building_trace singleRun 1 [] hpool
  have hend := ((single_recorded.trans hbuilding).tail (.built 1 [] _ ⟨rfl, rfl, rfl⟩)).tail
    (.finish 1 _)
  refine ⟨_, _, hend, ?_, ?_⟩
  · exact (cleaned_elves _ _).1
  · exact cleaned_progress _ _

/-- The first run over a fresh root. -/
theorem describes_iff_sample : ∃ s, s.elves = {sampleElf} ∧ Describes s := by
  obtain ⟨events, s, hrun, helves, _⟩ := single_collected
  have hruns : CompletedRuns sampleConfig (some (singleRun, .empty)) s := .run ∅ .fresh hrun
  have hnames : ∀ run files, some (singleRun, Store.empty) = some (run, files) →
      ∀ url ∈ mapfile run.list.text, Ordinary sampleConfig url := by
    intro run files heq url hurl
    cases heq
    rw [mapfile_singleRun, List.mem_singleton] at hurl
    rw [hurl]
    exact ⟨by decide, by decide⟩
  have hbatches : ∀ run files, some (singleRun, Store.empty) = some (run, files) →
      ∀ batch ∈ batches run files, KeptApart sampleConfig batch := by
    intro run files heq batch hbatch
    cases heq
    rw [batches, mapfile_singleRun] at hbatch
    obtain rfl : batch = [sampleUrl] := List.mem_singleton.mp hbatch
    exact .inr (List.nodup_singleton _)
  refine ⟨s, helves, (describes_iff hruns hnames hbatches).mpr ?_⟩
  intro run files heq elf hstored
  cases heq
  cases hstored.1

/-- A second run over the same list empties the map and copies nothing. -/
theorem not_describes_secondRun :
    ¬ ∀ last s, CompletedRuns sampleConfig last s → Describes s := by
  intro h
  obtain ⟨events, s, hrun, helves, hprogress⟩ := single_collected
  have hsecond : CompletedRuns sampleConfig (some (singleRun, s)) (setUp 0 s) :=
    .run s.directories (.run ∅ .fresh hrun) (single_passedOver s hprogress)
  have hstored : Stored (setUp 0 s) sampleElf := by
    refine ⟨?_, by decide⟩
    rw [show (setUp 0 s).elves = s.elves from rfl, helves]
    exact Finset.mem_singleton_self _
  have hcount := h _ _ hsecond sampleElf
  rw [if_pos hstored] at hcount
  cases hcount

end Sample

end Icflow.Static
