import Icflow.Static.Isolation

set_option autoImplicit false

/-!
# Resuming an interrupted run

The clone phase records a URL as soon as its clone has ended; the build comes in a later
phase of the batch.  `Owed` are the URLs whose clone has succeeded and whose directory
has not been built since.  A run builds everything it owes, and everything it takes over
that is not in the log; what a killed run leaves in the log and owes is never built.

The script has no trap: when it is killed, its background jobs go on.
-/

namespace Icflow.Static

open Icflow.Foundation Icflow.Collect

variable {config : Config} {run : Run} {initial s s' : Store} {state state' : State}
  {events more : List Event} {url : Url}

/-- `git clone` has succeeded, and the directory has not been built since. -/
def Owed (config : Config) (events : List Event) (url : Url) : Prop :=
  ∃ before after, events = before ++ .cloned url :: after ∧
    .built (packageName config.machine url) ∉ after

/-- `build_package` has run to its end after every successful clone. -/
def EveryCloneBuilt (config : Config) (events : List Event) : Prop :=
  ∀ before url after, events = before ++ .cloned url :: after →
    .built (packageName config.machine url) ∈ after

theorem everyCloneBuilt_of_none (h : ∀ url, ¬ Owed config events url) :
    EveryCloneBuilt config events := by
  intro before url after heq
  exact Classical.byContradiction fun hbuilt => h url ⟨before, after, heq, hbuilt⟩

theorem not_owed_nil (url : Url) : ¬ Owed config [] url := by
  rintro ⟨before, after, heq, _⟩
  exact absurd heq.symm (List.append_ne_nil_of_right_ne_nil before (List.cons_ne_nil _ _))

/-- What is owed was owed before and not built, or has just been cloned. -/
theorem Owed.cases (h : Owed config (events ++ more) url) :
    (Owed config events url ∧ .built (packageName config.machine url) ∉ more) ∨
      .cloned url ∈ more := by
  obtain ⟨before, after, heq, hbuilt⟩ := h
  rcases List.append_eq_append_iff.mp heq with ⟨rest, _, hmore⟩ | ⟨rest, hevents, hafter⟩
  · refine .inr ?_
    rw [hmore]
    exact List.mem_append_right _ List.mem_cons_self
  · cases rest with
    | nil =>
        refine .inr ?_
        rw [List.nil_append] at hafter
        rw [← hafter]
        exact List.mem_cons_self
    | cons event rest =>
        rw [List.cons_append] at hafter
        obtain ⟨rfl, rfl⟩ := List.cons.inj hafter
        rw [List.mem_append, not_or] at hbuilt
        exact .inl ⟨⟨before, rest, hevents, hbuilt.1⟩, hbuilt.2⟩

section Jobs

/-- This attempt has made the directory. -/
def CloneJob.made (job : CloneJob) : Bool :=
  match job.phase with
  | .cloning _ _ made => made
  | .entered | .timed _ | .counted .. | .resetting | .allowed _ | .unrecorded _ | .recorded _ =>
      false

theorem mem_abandoned {name other : PackageName} {removes : Bool} (h : name ∈ s.directories)
    (hother : removes = true → name ≠ other) : name ∈ (abandoned other removes s).directories := by
  unfold abandoned
  split
  · rename_i hremoves
    exact Finset.mem_erase.mpr ⟨hother hremoves, h⟩
  · exact h

/-- A clone removes no directory but the one it has made. -/
theorem CloneStep.mem_directories {job : CloneJob} {next : Option CloneJob} {name : PackageName}
    (h : CloneStep config s job more s' next) (hname : name ∈ s.directories)
    (hmade : job.made = true → name ≠ packageName config.machine job.url) :
    name ∈ s'.directories := by
  cases h with
  | make url counter retries _ => exact Finset.mem_insert_of_mem hname
  | succeed url counter retries made _ => exact Finset.mem_insert_of_mem hname
  | retry url counter retries made removes hremoves _ =>
      exact mem_abandoned hname fun h => hmade (hremoves h)
  | giveUp url counter retries made removes hremoves _ =>
      exact mem_abandoned hname fun h => hmade (hremoves h)
  | fail url counter retries made removes hremoves =>
      exact mem_abandoned hname fun h => hmade (hremoves h)
  | _ => exact hname

/-- A clone that succeeds leaves its directory. -/
theorem CloneStep.cloned_mem {job : CloneJob} {next : Option CloneJob}
    (h : CloneStep config s job more s' next) (hcloned : .cloned url ∈ more) :
    url = job.url ∧ isOption url = false ∧ packageName config.machine url ∈ s'.directories ∧
      ∀ job' ∈ next, job'.made = false := by
  cases h with
  | succeed other counter retries made hurl =>
      obtain rfl : url = other := by simpa using hcloned
      refine ⟨rfl, hurl, Finset.mem_insert_self _ _, ?_⟩
      intro job' hjob'
      cases hjob'
      rfl
  | _ => simp at hcloned

/-- A job that has made its directory made it before or makes it now. -/
theorem CloneStep.made {job next : CloneJob} (h : CloneStep config s job more s' (some next))
    (hmade : next.made = true) :
    job.made = true ∨ packageName config.machine job.url ∉ s.directories := by
  cases h with
  | make url counter retries habsent => exact .inr habsent
  | _ => exact Bool.noConfusion hmade

theorem CloneStep.mem_progress_of {job : CloneJob} {next : Option CloneJob}
    (h : CloneStep config s job more s' next) (hurl : url ∈ s'.progress) :
    url ∈ s.progress ∨ url ∈ echoed job.url := by
  cases h with
  | record other counter => exact List.mem_append.mp hurl
  | _ => exact .inl (by simpa using hurl)

theorem BuildStep.cloned_notMem {job : BuildJob} {next : Option BuildJob}
    (h : BuildStep config s job more s' next) : .cloned url ∉ more := by
  cases h <;> simp

/-- A build that has not ended removes nothing. -/
theorem BuildStep.mem_directories {job : BuildJob} {next : Option BuildJob} {name : PackageName}
    (h : BuildStep config s job more s' next) (hname : name ∈ s.directories)
    (hbuilt : .built name ∉ more) (hclimbs : climbs (packageName config.machine job.url) = false) :
    name ∈ s'.directories := by
  cases h with
  | clean url =>
      have hne : name ≠ packageName config.machine url := by simpa using hbuilt
      unfold cleaned
      split
      · exact hname
      · rw [if_neg (by simp [hclimbs])]
        exact Finset.mem_erase.mpr ⟨hne, hname⟩
  | _ => exact hname

/-- A build ends with its event, or finds no directory. -/
theorem BuildStep.ends_cases {job : BuildJob} (h : BuildStep config s job more s' none) :
    .built (packageName config.machine job.url) ∈ more ∨
      present s (packageName config.machine job.url) = false := by
  cases h with
  | refuse url habsent _ => exact .inr habsent
  | clean url => exact .inl List.mem_cons_self

theorem present_of_mem {name : PackageName} (h : name ∈ s.directories) : present s name = true := by
  simp [present, h]

/-- `echo` writes the URL, or a line that is empty. -/
theorem mem_echoed {other : Url} (h : url ∈ echoed other) : url = other ∨ url = [] := by
  unfold echoed at h
  split at h
  · split at h
    · cases h
    · exact .inr (List.mem_singleton.mp h)
  · exact .inl (List.mem_singleton.mp h)

end Jobs

section Provided

/-- The clone jobs that run. -/
def State.cloneJobs : State → List CloneJob
  | .cloning _ _ _ pool => pool.running
  | .reading .. | .building .. | .finished _ => []

/-- The build of the directory is still to come: in this batch or, as the URL is not in the
log, in a later one. -/
def Waits (config : Config) (state : State) (url : Url) : Prop :=
  match state with
  | .reading _ urls batch s => url ∉ s.progress ∧ (url ∈ batch ∨ url ∈ urls)
  | .cloning _ urls batch pool => url ∈ batch ∨ (url ∈ urls ∧ url ∉ pool.store.progress)
  | .building _ urls pool =>
      packageName config.machine url ∈
          pool.keys (fun job => packageName config.machine job.url) (packageName config.machine) ∨
        (url ∈ urls ∧ url ∉ pool.store.progress)
  | .finished _ => False

/-- What holds of a URL that is owed. -/
structure Provided (config : Config) (run : Run) (state : State) (url : Url) : Prop where
  proper : Proper run.list url
  notOption : isOption url = false
  there : packageName config.machine url ∈ state.store.directories
  waits : Waits config state url
  made : ∀ job ∈ state.cloneJobs, job.made = true →
    packageName config.machine url ≠ packageName config.machine job.url

section Pools

variable {totalCount : Nat} {urls batch : List Url} {pool pool' : JobPool.State Store Url CloneJob}
  {builds builds' : JobPool.State Store Url BuildJob}

/-- A step of the clone phase keeps what is provided. -/
theorem Provided.clone (h : Provided config run (.cloning totalCount urls batch pool) url)
    (hkeys : pool.keys CloneJob.url id ⊆ batch)
    (hpool : JobPool.Step (clonePhase config) config.maxJobs pool more pool') :
    Provided config run (.cloning totalCount urls batch pool') url := by
  cases hpool with
  | skip entry rest _ _ habsent => exact absurd trivial habsent
  | accept entry rest _ _ _ => exact ⟨h.proper, h.notOption, h.there, h.waits, h.made⟩
  | start entry _ _ =>
      refine ⟨h.proper, h.notOption, h.there, h.waits, ?_⟩
      intro job hjob hmade
      rcases List.mem_append.mp hjob with hold | hnew
      · exact h.made job hold hmade
      · rw [List.mem_singleton.mp hnew] at hmade
        cases hmade
  | work earlier job later _ store next hrunning hwork =>
      have hmem : job ∈ pool.running := by
        rw [hrunning]
        exact List.mem_append_right _ List.mem_cons_self
      refine ⟨h.proper, h.notOption, ?_, ?_, ?_⟩
      · exact CloneStep.mem_directories hwork h.there (h.made job hmem)
      · rcases Classical.em (url ∈ batch) with hbatch | hbatch
        · exact .inl hbatch
        · obtain ⟨hurls, hprogress⟩ := h.waits.resolve_left hbatch
          refine .inr ⟨hurls, fun hlogged => ?_⟩
          rcases CloneStep.mem_progress_of hwork hlogged with hold | hecho
          · exact hprogress hold
          · rcases mem_echoed hecho with hjob | hempty
            · exact hbatch (hjob ▸ hkeys (mem_keys_of_running hmem))
            · exact h.proper.nonempty hempty
      · intro other hother hmade
        have hold : ∀ other ∈ earlier ++ later, other ∈ pool.running := by
          intro other hother
          rw [hrunning]
          rcases List.mem_append.mp hother with hearlier | hlater
          · exact List.mem_append_left _ hearlier
          · exact List.mem_append_right _ (List.mem_cons_of_mem _ hlater)
        rcases List.mem_append.mp hother with hfront | hlater
        · rcases List.mem_append.mp hfront with hearlier | hnext
          · exact h.made other (hold other (List.mem_append_left _ hearlier)) hmade
          · rw [Option.mem_toList] at hnext
            subst hnext
            rw [CloneStep.url hwork]
            rcases CloneStep.made hwork hmade with hjob | habsent
            · exact h.made job hmem hjob
            · exact fun heq => habsent (heq ▸ h.there)
        · exact h.made other (hold other (List.mem_append_right _ hlater)) hmade

/-- What has just been cloned is provided. -/
theorem provided_of_cloned (hpool : JobPool.Step (clonePhase config) config.maxJobs pool more pool')
    (hcloned : .cloned url ∈ more) (hkeys : pool.keys CloneJob.url id ⊆ batch)
    (hproper : ∀ url ∈ batch, Proper run.list url)
    (hseparate : Separate config (.cloning totalCount urls batch pool)) :
    Provided config run (.cloning totalCount urls batch pool') url := by
  cases hpool with
  | skip entry rest _ _ _ => cases hcloned
  | accept entry rest _ _ _ => cases hcloned
  | start entry _ _ => cases List.mem_singleton.mp hcloned
  | work earlier job later _ store next hrunning hwork =>
      have hmem : job ∈ pool.running := by
        rw [hrunning]
        exact List.mem_append_right _ List.mem_cons_self
      obtain ⟨rfl, hurl, hthere, hnext⟩ := CloneStep.cloned_mem hwork hcloned
      have hbatch : job.url ∈ batch := hkeys (mem_keys_of_running hmem)
      refine ⟨hproper _ hbatch, hurl, hthere, .inl hbatch, ?_⟩
      intro other hother hmade
      have hne : other ∈ earlier ++ later →
          packageName config.machine other.url ≠ packageName config.machine job.url :=
        fun hold => hseparate.2.ne_of_mem hrunning hold
      rcases List.mem_append.mp hother with hfront | hlater
      · rcases List.mem_append.mp hfront with hearlier | hlast
        · exact (hne (List.mem_append_left _ hearlier)).symm
        · rw [hnext other (Option.mem_toList.mp hlast)] at hmade
          cases hmade
      · exact (hne (List.mem_append_right _ hlater)).symm

/-- A step of the build phase keeps what is provided until it is built. -/
theorem Provided.build (h : Provided config run (.building totalCount urls builds) url)
    (hkeys : builds.keys BuildJob.url id ⊆ mapfile run.list.text)
    (hnames : ∀ url ∈ mapfile run.list.text, climbs (packageName config.machine url) = false)
    (hpool : JobPool.Step (buildPhase config) config.maxJobs builds more builds')
    (hbuilt : .built (packageName config.machine url) ∉ more) :
    Provided config run (.building totalCount urls builds') url := by
  have hthere : packageName config.machine url ∈ builds.store.directories := h.there
  refine ⟨h.proper, h.notOption, ?_, ?_, fun _ hjob => nomatch hjob⟩
  · cases hpool with
    | skip entry rest _ _ _ => exact hthere
    | accept entry rest _ _ _ => exact hthere
    | start entry _ _ => exact hthere
    | work earlier job later _ store next hrunning hwork =>
        refine BuildStep.mem_directories hwork hthere hbuilt (hnames _ (hkeys ?_))
        refine mem_keys_of_running ?_
        rw [hrunning]
        exact List.mem_append_right _ List.mem_cons_self
  · rcases h.waits with hwaiting | ⟨hurls, hprogress⟩
    · refine .inl ?_
      rcases hpool.mem_keys (fun _ => rfl)
          (fun _ _ _ _ _ hwork => congrArg (packageName config.machine) (BuildStep.url hwork))
          hwaiting with hkept | ⟨entry, habsent, hname⟩ | ⟨job, _, hwork, hname⟩
      · exact hkept
      · have hpresent := present_of_mem hthere
        rw [← hname] at hpresent
        exact absurd hpresent habsent
      · rcases BuildStep.ends_cases hwork with hends | habsent
        · rw [hname] at hends
          exact absurd hends hbuilt
        · rw [hname, present_of_mem hthere] at habsent
          cases habsent
    · refine .inr ⟨hurls, ?_⟩
      rw [progress_of_build hpool]
      exact hprogress

end Pools

theorem cloned_notMem_of_build {builds builds' : JobPool.State Store Url BuildJob}
    (hpool : JobPool.Step (buildPhase config) config.maxJobs builds more builds') :
    .cloned url ∉ more := by
  cases hpool with
  | skip entry rest _ _ _ => exact List.not_mem_nil
  | accept entry rest _ _ _ => exact List.not_mem_nil
  | start entry _ _ => exact fun h => nomatch List.mem_singleton.mp h
  | work earlier job later _ store next _ hwork => exact BuildStep.cloned_notMem hwork

theorem mem_append_or {other : Url} {batch urls : List Url}
    (h : url ∈ batch ∨ url ∈ other :: urls) : url ∈ batch ++ [other] ∨ url ∈ urls := by
  rcases h with hbatch | hmem
  · exact .inl (List.mem_append_left _ hbatch)
  · rcases List.mem_cons.mp hmem with rfl | hrest
    · exact .inl (List.mem_append_right _ List.mem_cons_self)
    · exact .inr hrest

/-- A step of the script keeps everything provided that stays owed. -/
theorem Step.provided (h : Step config run state more state') (hlist : FromList run state)
    (hseparate : Separate config state)
    (hnames : ∀ url ∈ mapfile run.list.text, climbs (packageName config.machine url) = false)
    (hkept : ∀ url, Owed config events url → Provided config run state url)
    (howed : Owed config (events ++ more) url) : Provided config run state' url := by
  rcases howed.cases with ⟨hold, hbuilt⟩ | hcloned
  · have hurl := hkept url hold
    cases h with
    | passOver totalCount other urls batch s hpass =>
        refine ⟨hurl.proper, hurl.notOption, hurl.there, ?_, hurl.made⟩
        obtain ⟨hprogress, hwaits⟩ := hurl.waits
        refine ⟨hprogress, hwaits.imp id fun hmem => ?_⟩
        rcases List.mem_cons.mp hmem with rfl | hrest
        · rw [hurl.proper.passesOver hurl.notOption hprogress] at hpass
          cases hpass
        · exact hrest
    | add totalCount other urls batch s _ _ =>
        refine ⟨hurl.proper, hurl.notOption, hurl.there, ?_, hurl.made⟩
        obtain ⟨hprogress, hwaits⟩ := hurl.waits
        exact ⟨hprogress, mem_append_or hwaits⟩
    | full totalCount other urls batch s _ _ =>
        refine ⟨hurl.proper, hurl.notOption, hurl.there, ?_, fun _ h => nomatch h⟩
        obtain ⟨hprogress, hwaits⟩ := hurl.waits
        exact (mem_append_or hwaits).imp id fun hrest => ⟨hrest, hprogress⟩
    | last totalCount batch s _ =>
        refine ⟨hurl.proper, hurl.notOption, hurl.there, ?_, fun _ h => nomatch h⟩
        exact hurl.waits.2.imp id fun hrest => nomatch hrest
    | clone totalCount urls batch _ pool pool' hpool => exact hurl.clone hlist.2.2 hpool
    | cloned totalCount urls batch pool hdone =>
        refine ⟨hurl.proper, hurl.notOption, hurl.there, ?_, fun _ h => nomatch h⟩
        refine hurl.waits.imp (fun hbatch => ?_) id
        exact List.mem_map_of_mem hbatch
    | build totalCount urls _ pool pool' hpool => exact hurl.build hlist.2 hnames hpool hbuilt
    | built totalCount urls pool hdone =>
        refine ⟨hurl.proper, hurl.notOption, hurl.there, ?_, hurl.made⟩
        rcases hurl.waits with hkey | ⟨hurls, hprogress⟩
        · rw [JobPool.State.keys, hdone.running, waiting_of_done hdone] at hkey
          cases hkey
        · exact ⟨hprogress, .inr hurls⟩
    | finish totalCount s => exact absurd hurl.waits.2 (by simp)
  · cases h with
    | clone totalCount urls batch _ pool pool' hpool =>
        exact provided_of_cloned hpool hcloned hlist.2.2 hlist.2.1 hseparate
    | build totalCount urls _ pool pool' hpool => exact absurd hcloned (cloned_notMem_of_build hpool)
    | _ => cases hcloned

end Provided

section Sessions

/-- What a run can take over: the URL is listed and not in the log, and its directory is there. -/
structure TakenOver (config : Config) (list : ListFile) (s : Store) (url : Url) : Prop where
  proper : Proper list url
  notOption : isOption url = false
  there : packageName config.machine url ∈ s.directories
  unrecorded : url ∉ s.progress

/-- Whatever a run owes or has taken over is provided for in all its states. -/
theorem Executes.provided (h : Executes config run initial more state)
    (hbatches : ∀ batch ∈ batches run initial, KeptApart config batch)
    (hnames : ∀ url ∈ mapfile run.list.text, climbs (packageName config.machine url) = false)
    (hstart : ∀ url, Owed config events url → TakenOver config run.list initial url) :
    ∀ url, Owed config (events ++ more) url → Provided config run state url := by
  induction h with
  | refl =>
      intro url howed
      rw [List.append_nil] at howed
      obtain ⟨hproper, hoption, hthere, hprogress⟩ := hstart url howed
      exact ⟨hproper, hoption, hthere, ⟨hprogress, .inr hproper.mem⟩, fun _ h => nomatch h⟩
  | @tail earlier s later s' htrace hstep ih =>
      intro url howed
      rw [← List.append_assoc] at howed
      exact hstep.provided (Executes.fromList htrace) (Executes.separate htrace hbatches) hnames ih
        howed

/-- A step of a job, with or without the script that started it. -/
inductive JobStep (config : Config) : State → List Event → State → Prop where
  | clone (totalCount : Nat) (urls batch : List Url) (pool : JobPool.State Store Url CloneJob)
      (earlier : List CloneJob) (job : CloneJob) (later : List CloneJob) (events : List Event)
      (store : Store) (next : Option CloneJob) (hrunning : pool.running = earlier ++ job :: later)
      (hwork : CloneStep config pool.store job events store next) :
      JobStep config (.cloning totalCount urls batch pool) events
        (.cloning totalCount urls batch
          { pool with store := store, running := earlier ++ next.toList ++ later })
  | build (totalCount : Nat) (urls : List Url) (pool : JobPool.State Store Url BuildJob)
      (earlier : List BuildJob) (job : BuildJob) (later : List BuildJob) (events : List Event)
      (store : Store) (next : Option BuildJob) (hrunning : pool.running = earlier ++ job :: later)
      (hwork : BuildStep config pool.store job events store next) :
      JobStep config (.building totalCount urls pool) events
        (.building totalCount urls
          { pool with store := store, running := earlier ++ next.toList ++ later })

/-- The run could have taken the step itself. -/
theorem JobStep.step (h : JobStep config state events state') :
    Step config run state events state' := by
  cases h with
  | clone totalCount urls batch pool earlier job later _ store next hrunning hwork =>
      exact .clone totalCount urls batch _ _ _
        (.work pool earlier job later _ store next hrunning hwork)
  | build totalCount urls pool earlier job later _ store next hrunning hwork =>
      exact .build totalCount urls _ _ _
        (.work pool earlier job later _ store next hrunning hwork)

/-- What the jobs do after the script is killed. -/
def Orphaned (config : Config) : State → List Event → State → Prop := Trace (JobStep config)

theorem Executes.orphaned (h : Executes config run initial events state)
    (horphaned : Orphaned config state more state') :
    Executes config run initial (events ++ more) state' :=
  h.trans (horphaned.map id fun _ _ _ hstep => hstep.step)

/-- Runs over one list and one root, each of them killed in some state; its jobs go on, and
the next run starts when all of them have ended or been killed.  `allowed` tells which kills
may happen, from the files the run started with, all events so far and the files that it and
its jobs leave. -/
inductive Killed (config : Config) (list : ListFile) (first : Store)
    (allowed : Run → Store → List Event → Store → Prop) : List Event → Store → Prop where
  | start : Killed config list first allowed [] first
  | kill {events : List Event} {s : Store} {run : Run} {more later : List Event}
      {state state' : State}
      (h : Killed config list first allowed events s) (hlist : run.list = list)
      (hrun : Executes config run s more state) (horphaned : Orphaned config state later state')
      (hallowed : allowed run s (events ++ (more ++ later)) state'.store) :
      Killed config list first allowed (events ++ (more ++ later)) state'.store

/-- After any sequence of killed runs, a run that completes leaves nothing owed. -/
def ResumesWithoutLoss (config : Config) (list : ListFile) (first : Store) : Prop :=
  ∀ events s run more s', Killed config list first (fun _ _ _ _ => True) events s →
    run.list = list → Executes config run s more (.finished s') →
      EveryCloneBuilt config (events ++ more)

/-- The jobs of a batch are kept apart, and when the run and its jobs have ended, nothing in
the log is owed. -/
structure SettledKill (config : Config) (run : Run) (s : Store) (events : List Event)
    (s' : Store) : Prop where
  apart : ∀ batch ∈ batches run s, KeptApart config batch
  settled : ∀ url, Owed config events url → url ∉ s'.progress

theorem Killed.takenOver {list : ListFile} {first : Store}
    (hnames : ∀ url ∈ mapfile list.text, climbs (packageName config.machine url) = false)
    (h : Killed config list first (SettledKill config) events s) :
    ∀ url, Owed config events url → TakenOver config list s url := by
  induction h with
  | start => exact fun url howed => absurd howed (not_owed_nil url)
  | @kill events s run more later state state' _ hlist hrun horphaned hallowed ih =>
      subst hlist
      intro url howed
      have hurl := (hrun.orphaned horphaned).provided hallowed.apart hnames ih url howed
      exact ⟨hurl.proper, hurl.notOption, hurl.there, hallowed.settled url howed⟩

end Sessions

section Sample

/-- The files when the only clone has succeeded. -/
def clonedStore : Store :=
  { setUp 0 .empty with
    directories := insert (packageName sampleConfig.machine sampleUrl) ∅
    buildLog := [.cloneSuccess (packageName sampleConfig.machine sampleUrl)] }

/-- The files when the clone has been recorded. -/
def recordedStore : Store :=
  { clonedStore with progress := [sampleUrl], counter := some 1 }

theorem mapfile_singleRun : mapfile singleRun.list.text = [sampleUrl] := by decide

theorem single_opened : Executes sampleConfig singleRun .empty []
    (.cloning 1 [] [sampleUrl] (.start (setUp 0 .empty) [sampleUrl])) := by
  have hadd : Step sampleConfig singleRun (.reading 0 [sampleUrl] [] (setUp 0 .empty)) []
      (.reading 1 [] [sampleUrl] (setUp 0 .empty)) :=
    .add 0 sampleUrl [] [] _ (by decide) (by decide)
  rw [Executes, State.initial, mapfile_singleRun]
  exact .head hadd (.single (Step.last 1 _ _ (List.cons_ne_nil _ _)))

/-- The only job has been started. -/
theorem single_started : Executes sampleConfig singleRun .empty [.cloneStarted sampleUrl]
    (.cloning 1 [] [sampleUrl] ⟨setUp 0 .empty, [], none, [⟨sampleUrl, .entered⟩]⟩) :=
  single_opened.trans (cloning_trace singleRun 1 [] [sampleUrl]
    (clone_started (setUp 0 .empty) sampleUrl [] [] (by decide)))

/-- A job that is left alone goes on by itself. -/
theorem orphaned_turns {s s' : Store} {job job' : CloneJob}
    (h : Trace (JobPool.Turn (clonePhase config)) (s, job) events (s', job')) (totalCount : Nat)
    (urls batch : List Url) :
    Orphaned config (.cloning totalCount urls batch ⟨s, [], none, [job]⟩) events
      (.cloning totalCount urls batch ⟨s', [], none, [job']⟩) := by
  have hmap : ∀ s more s', JobPool.Turn (clonePhase config) s more s' →
      JobStep config (.cloning totalCount urls batch ⟨s.1, [], none, [s.2]⟩) more
        (.cloning totalCount urls batch ⟨s'.1, [], none, [s'.2]⟩) :=
    fun s more s' hturn =>
      .clone totalCount urls batch _ [] s.2 [] more s'.1 (some s'.2) rfl hturn
  exact h.map (fun s => State.cloning totalCount urls batch ⟨s.1, [], none, [s.2]⟩) hmap

/-- The job clones the repository. -/
theorem orphaned_single : Orphaned sampleConfig
    (.cloning 1 [] [sampleUrl] ⟨setUp 0 .empty, [], none, [⟨sampleUrl, .entered⟩]⟩)
    [.passed sampleUrl, .cloned sampleUrl]
    (.cloning 1 [] [sampleUrl] ⟨clonedStore, [], none, [⟨sampleUrl, .unrecorded 0⟩]⟩) := by
  have hturns : Trace (JobPool.Turn (clonePhase sampleConfig))
      (setUp 0 .empty, ⟨sampleUrl, .entered⟩) [.passed sampleUrl, .cloned sampleUrl]
      (clonedStore, ⟨sampleUrl, .unrecorded 0⟩) :=
    (turn_clone (.readTimestamp _ sampleUrl 0)).trans ((turn_clone (.readCounter _ sampleUrl _)).trans
      ((turn_clone (.keep _ sampleUrl _ _ (by decide) (by decide))).trans
        ((turn_clone (.pass _ sampleUrl 0)).trans
          (turn_clone (.succeed _ sampleUrl 0 0 false (by decide))))))
  exact orphaned_turns hturns 1 [] [sampleUrl]

/-- The clone has been recorded and the build not begun. -/
theorem single_recorded : Executes sampleConfig singleRun .empty
    [.cloneStarted sampleUrl, .passed sampleUrl, .cloned sampleUrl]
    (.building 1 [] (.start recordedStore [sampleUrl])) := by
  have hends : JobPool.Alone (clonePhase sampleConfig) clonedStore ⟨sampleUrl, .unrecorded 0⟩ []
      recordedStore :=
    (CloneStep.record clonedStore sampleUrl 0).more (CloneStep.increment _ sampleUrl 0).ends
  have hphase : Step sampleConfig singleRun
      (.cloning 1 [] [sampleUrl] ⟨recordedStore, [], none, []⟩) []
      (.building 1 [] (.start recordedStore [sampleUrl])) :=
    .cloned 1 [] [sampleUrl] _ ⟨rfl, rfl, rfl⟩
  exact ((single_started.orphaned orphaned_single).trans
    (cloning_trace singleRun 1 [] [sampleUrl] (hends.trace [] none []))).tail hphase

/-- A run over a log that has the URL. -/
theorem single_passedOver (s : Store) (hprogress : s.progress = [sampleUrl]) :
    Executes sampleConfig singleRun s [] (.finished (setUp 0 s)) := by
  have hpass : Step sampleConfig singleRun (.reading 0 [sampleUrl] [] (setUp 0 s)) []
      (.reading 1 [] [] (setUp 0 s)) := by
    refine .passOver 0 sampleUrl [] [] _ ?_
    rw [setUp, hprogress]
    decide
  rw [Executes, State.initial, mapfile_singleRun]
  exact .head hpass (.single (Step.finish 1 _))

end Sample

end Icflow.Static
