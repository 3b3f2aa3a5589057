import Icflow.Static.Sequential

set_option autoImplicit false

/-!
# Which jobs can meet

Two jobs that run at the same time belong to the same phase of the same batch.  They
work on different directories in every order of steps exactly when no batch has two
URLs of one name, unless the jobs run one by one anyway; and a URL is taken twice
exactly when it stands twice in a batch, or is one that the progress log cannot answer
for.
-/

namespace Icflow.Static

open Icflow.Foundation Icflow.Collect

variable {config : Config} {run : Run} {initial s s' : Store} {state state' : State}
  {events more : List Event}

/-- The directories that the running jobs work on. -/
def directoriesInUse (config : Config) : State → List PackageName
  | .cloning _ _ _ pool => pool.running.map fun job => packageName config.machine job.url
  | .building _ _ pool => pool.running.map fun job => packageName config.machine job.url
  | .reading .. | .finished _ => []

/-- No two running jobs work on one directory, and no URL has been cloned or built twice. -/
structure Isolated (config : Config) (events : List Event) (state : State) : Prop where
  directories : (directoriesInUse config state).Nodup
  clones : (clonesStarted events).Nodup
  builds : (buildsStarted events).Nodup

/-- Jobs of the batch that meet have different directories. -/
def KeptApart (config : Config) (batch : List Url) : Prop :=
  config.maxJobs ≤ 1 ∨ (batch.map (packageName config.machine)).Nodup

section Apart

/-- The jobs of the batch are kept apart. -/
def Separate (config : Config) : State → Prop
  | .cloning _ _ batch pool =>
      KeptApart config batch ∧
        pool.Apart (fun job => packageName config.machine job.url) (packageName config.machine)
          config.maxJobs
  | .building _ _ pool =>
      pool.Apart (fun job => packageName config.machine job.url) (packageName config.machine)
        config.maxJobs
  | .reading .. | .finished _ => True

theorem Step.separate (h : Step config run state more state') (hseparate : Separate config state)
    (hbatches : ∀ batch ∈ laterBatches run state, KeptApart config batch) :
    Separate config state' := by
  cases h with
  | passOver totalCount url urls batch s _ => trivial
  | add totalCount url urls batch s _ _ => trivial
  | full totalCount url urls batch s hpass hbatch =>
      have hapart : KeptApart config (batch ++ [url]) := by
        refine hbatches _ ?_
        rw [laterBatches, batchesFrom_full hpass hbatch]
        exact List.mem_cons_self
      exact ⟨hapart, JobPool.State.apart_start hapart⟩
  | last totalCount batch s hbatch =>
      have hapart : KeptApart config batch := by
        refine hbatches _ ?_
        rw [laterBatches, batchesFrom_last hbatch]
        exact List.mem_cons_self
      exact ⟨hapart, JobPool.State.apart_start hapart⟩
  | clone totalCount urls batch _ pool pool' hpool =>
      refine ⟨hseparate.1, hseparate.2.step (fun _ => rfl) ?_ hpool⟩
      intro store job events store' next hwork
      exact congrArg (packageName config.machine) (CloneStep.url hwork)
  | cloned totalCount urls batch pool _ => exact JobPool.State.apart_start hseparate.1
  | build totalCount urls _ pool pool' hpool =>
      refine JobPool.State.Apart.step hseparate (fun _ => rfl) ?_ hpool
      intro store job events store' next hwork
      exact congrArg (packageName config.machine) (BuildStep.url hwork)
  | built totalCount urls pool _ => trivial
  | finish totalCount s => trivial

/-- What keeps the jobs of every batch apart keeps the jobs of a run apart. -/
theorem Executes.separate (h : Executes config run initial events state)
    (hbatches : ∀ batch ∈ batches run initial, KeptApart config batch) :
    Separate config state := by
  induction h with
  | refl => trivial
  | tail htrace hstep ih =>
      exact hstep.separate ih fun batch hbatch =>
        hbatches batch (Executes.later_subset htrace hbatch)

theorem Separate.nodup (h : Separate config state) : (directoriesInUse config state).Nodup := by
  cases state with
  | reading totalCount urls batch store => exact List.nodup_nil
  | cloning totalCount urls batch pool => exact h.2.nodup
  | building totalCount urls pool => exact JobPool.State.Apart.nodup h
  | finished store => exact List.nodup_nil

end Apart

section Idle

/-- Nothing is started without a slot. -/
theorem Step.none_started (h : Step config run state more state') (hjobs : config.maxJobs = 0) :
    clonesStarted more = [] ∧ buildsStarted more = [] := by
  cases h with
  | clone totalCount urls batch _ pool pool' hpool =>
      refine ⟨?_, buildsStarted_of_clone hpool⟩
      cases hpool with
      | skip entry rest _ _ _ => rfl
      | accept entry rest _ _ _ => rfl
      | start entry _ hfree =>
          rw [hjobs] at hfree
          exact absurd hfree (Nat.not_lt_zero _)
      | work earlier job later _ store next _ hwork => exact CloneStep.clonesStarted hwork
  | build totalCount urls _ pool pool' hpool =>
      refine ⟨clonesStarted_of_build hpool, ?_⟩
      cases hpool with
      | skip entry rest _ _ _ => rfl
      | accept entry rest _ _ _ => rfl
      | start entry _ hfree =>
          rw [hjobs] at hfree
          exact absurd hfree (Nat.not_lt_zero _)
      | work earlier job later _ store next _ hwork => exact BuildStep.buildsStarted hwork
  | passOver totalCount url urls batch s _ => exact ⟨rfl, rfl⟩
  | add totalCount url urls batch s _ _ => exact ⟨rfl, rfl⟩
  | full totalCount url urls batch s _ _ => exact ⟨rfl, rfl⟩
  | last totalCount batch s _ => exact ⟨rfl, rfl⟩
  | cloned totalCount urls batch pool _ => exact ⟨rfl, rfl⟩
  | built totalCount urls pool _ => exact ⟨rfl, rfl⟩
  | finish totalCount s => exact ⟨rfl, rfl⟩

theorem Executes.none_started (h : Executes config run initial events state)
    (hjobs : config.maxJobs = 0) : clonesStarted events = [] ∧ buildsStarted events = [] := by
  refine Trace.invariant h (fun events _ => clonesStarted events = [] ∧ buildsStarted events = [])
    ⟨rfl, rfl⟩ ?_
  intro events state more state' ih hstep
  obtain ⟨hclones, hbuilds⟩ := hstep.none_started hjobs
  rw [clonesStarted_append, buildsStarted_append, ih.1, ih.2, hclones, hbuilds]
  exact ⟨rfl, rfl⟩

end Idle

section Meeting

/-- Two entries of the batch can be cloned at the same time. -/
theorem exists_meeting (hjobs : 1 < config.maxJobs) {totalCount : Nat} {urls batch : List Url}
    {s : Store}
    (h : Executes config run initial events (.cloning totalCount urls batch (.start s batch)))
    {earlier middle later : List Url} {first second : Url}
    (hbatch : batch = earlier ++ first :: (middle ++ second :: later)) :
    ∃ events totalCount urls batch pool,
      Executes config run initial events (.cloning totalCount urls batch pool) ∧
        pool.running = [⟨first, .entered⟩, ⟨second, .entered⟩] := by
  subst hbatch
  have hturns : ∀ (s : Store) (front queue : List Url) (others : List CloneJob),
      others.length < config.maxJobs → ∃ events s',
        Trace (JobPool.Step (clonePhase config) config.maxJobs) ⟨s, front ++ queue, none, others⟩
          events ⟨s', queue, none, others⟩ := by
    intro s front queue others hfree
    obtain ⟨events, s', htrace, _⟩ :=
      JobPool.exists_trace_append (fun _ _ => True) front queue others hfree
        (fun url _ before s _ _ => (keptByTurns_true config).clone url before s trivial) [] s trivial
    exact ⟨events, s', htrace⟩
  obtain ⟨_, s₁, hearlier⟩ := hturns s earlier (first :: (middle ++ second :: later)) []
    (Nat.lt_trans Nat.zero_lt_one hjobs)
  obtain ⟨_, s₂, hmiddle⟩ := hturns s₁ middle (second :: later) [⟨first, .entered⟩] hjobs
  have hfirst := clone_started s₁ first (middle ++ second :: later) []
    (Nat.lt_trans Nat.zero_lt_one hjobs)
  have hsecond := clone_started s₂ second later [⟨first, .entered⟩] hjobs
  have hpool := ((hearlier.trans hfirst).trans hmiddle).trans hsecond
  exact ⟨_, totalCount, urls, _, _, h.trans (cloning_trace run totalCount urls _ hpool), rfl⟩

/-- Without such a pair, the names are apart. -/
theorem nodup_map_of_apart {α β : Type} (f : α → β) (entries : List α)
    (h : ∀ earlier first middle second later,
      entries = earlier ++ first :: (middle ++ second :: later) → f first ≠ f second) :
    (entries.map f).Nodup := by
  induction entries with
  | nil => exact List.nodup_nil
  | cons entry rest ih =>
      rw [List.map_cons, List.nodup_cons]
      refine ⟨?_, ih ?_⟩
      · intro hmem
        obtain ⟨other, hother, heq⟩ := List.mem_map.mp hmem
        obtain ⟨middle, later, hrest⟩ := List.append_of_mem hother
        exact h [] entry middle other later (by rw [hrest, List.nil_append]) heq.symm
      · intro earlier first middle second later hrest
        exact h (entry :: earlier) first middle second later (by rw [hrest, List.cons_append])

end Meeting

/-- The list has one URL twice. -/
def repeatedRun : Run where
  list := ⟨sampleUrl ++ '\n' :: (sampleUrl ++ ['\n']), fun _ => true⟩
  grepFinds := fun _ => false
  now := 0

end Icflow.Static
