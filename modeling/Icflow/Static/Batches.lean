import Icflow.Static.Script

set_option autoImplicit false

/-!
# Which URLs a run hands to its jobs

In any order of steps the calls of `clone_package`, followed by what waits in the
batch and by the batches to come, are the batches of the run one after the other.  The
calls of `build_package` are some of those of `clone_package`, in the same order.
-/

namespace Icflow.Static

open Icflow.Foundation Icflow.Collect

variable {config : Config} {run : Run} {initial s s' : Store} {state state' : State}
  {events more : List Event}

@[simp] theorem abandoned_progress (name : PackageName) (removes : Bool) (s : Store) :
    (abandoned name removes s).progress = s.progress := by
  unfold abandoned
  split <;> rfl

@[simp] theorem cleaned_progress (name : PackageName) (s : Store) :
    (cleaned name s).progress = s.progress := by
  unfold cleaned
  split
  · rfl
  · split <;> rfl

/-- The URL that the job still has to record. -/
def CloneJob.unrecorded (job : CloneJob) : List Url :=
  match job.phase with
  | .recorded _ => []
  | .entered | .timed _ | .counted .. | .resetting | .allowed _ | .cloning .. | .unrecorded _ =>
      [job.url]

/-- The URLs of the batch that are not in the log yet. -/
def unrecorded (pool : JobPool.State Store Url CloneJob) : List Url :=
  pool.running.flatMap CloneJob.unrecorded ++ pool.waiting

section Jobs

variable {job : CloneJob} {next : Option CloneJob}

theorem CloneStep.mem_progress (h : CloneStep config s job more s' next) (url : Url) :
    url ∈ s'.progress ++ (next.toList.flatMap CloneJob.unrecorded).flatMap echoed ↔
      url ∈ s.progress ++ job.unrecorded.flatMap echoed := by
  cases h <;> simp [CloneJob.unrecorded]

theorem CloneStep.clonesStarted (h : CloneStep config s job more s' next) :
    clonesStarted more = [] := by
  cases h <;> rfl

theorem CloneStep.buildsStarted (h : CloneStep config s job more s' next) :
    buildsStarted more = [] := by
  cases h <;> rfl

theorem BuildStep.clonesStarted {job : BuildJob} {next : Option BuildJob}
    (h : BuildStep config s job more s' next) : clonesStarted more = [] := by
  cases h <;> rfl

theorem BuildStep.buildsStarted {job : BuildJob} {next : Option BuildJob}
    (h : BuildStep config s job more s' next) : buildsStarted more = [] := by
  cases h <;> rfl

theorem BuildStep.progress {job : BuildJob} {next : Option BuildJob}
    (h : BuildStep config s job more s' next) : s'.progress = s.progress := by
  cases h with
  | clean url => exact cleaned_progress _ _
  | _ => rfl

end Jobs

section Pools

variable {maxJobs : Nat} {pool pool' : JobPool.State Store Url CloneJob}
  {builds builds' : JobPool.State Store Url BuildJob}

/-- Recording a URL only moves it from the batch to the log. -/
theorem mem_progress_unrecorded (h : JobPool.Step (clonePhase config) maxJobs pool more pool')
    (url : Url) :
    url ∈ pool'.store.progress ++ (unrecorded pool').flatMap echoed ↔
      url ∈ pool.store.progress ++ (unrecorded pool).flatMap echoed := by
  cases h with
  | skip entry rest _ _ habsent => exact absurd trivial habsent
  | accept entry rest hidle hqueue _ =>
      simp [unrecorded, JobPool.State.waiting, hidle, hqueue]
  | start entry hadmitted _ =>
      have hspawn : CloneJob.unrecorded ((clonePhase config).spawn entry) = [entry] := rfl
      simp [unrecorded, JobPool.State.waiting, hadmitted, hspawn]
  | work earlier job later _ store next hrunning hwork =>
      have hjob := CloneStep.mem_progress hwork url
      simp only [unrecorded, JobPool.State.waiting, hrunning, List.flatMap_append,
        List.flatMap_cons, List.mem_append] at hjob ⊢
      grind

/-- A call of `clone_package` is the next of the batch. -/
theorem clonesStarted_waiting (h : JobPool.Step (clonePhase config) maxJobs pool more pool') :
    clonesStarted more ++ pool'.waiting = pool.waiting := by
  cases h with
  | skip entry rest _ _ habsent => exact absurd trivial habsent
  | accept entry rest hidle hqueue _ =>
      rw [JobPool.State.waiting, JobPool.State.waiting, hidle, hqueue]
      rfl
  | start entry hadmitted _ =>
      rw [JobPool.State.waiting, JobPool.State.waiting, hadmitted]
      rfl
  | work earlier job later _ store next _ hwork =>
      rw [CloneStep.clonesStarted hwork]
      rfl

theorem buildsStarted_of_clone (h : JobPool.Step (clonePhase config) maxJobs pool more pool') :
    buildsStarted more = [] := by
  cases h with
  | skip entry rest _ _ _ => rfl
  | accept entry rest _ _ _ => rfl
  | start entry _ _ => rfl
  | work earlier job later _ store next _ hwork => exact CloneStep.buildsStarted hwork

theorem clonesStarted_of_build
    (h : JobPool.Step (buildPhase config) maxJobs builds more builds') :
    clonesStarted more = [] := by
  cases h with
  | skip entry rest _ _ _ => rfl
  | accept entry rest _ _ _ => rfl
  | start entry _ _ => rfl
  | work earlier job later _ store next _ hwork => exact BuildStep.clonesStarted hwork

/-- A call of `build_package` is for a later entry of the batch. -/
theorem buildsStarted_waiting (h : JobPool.Step (buildPhase config) maxJobs builds more builds') :
    (buildsStarted more ++ builds'.waiting).Sublist builds.waiting := by
  cases h with
  | skip entry rest hidle hqueue _ =>
      simp only [JobPool.State.waiting, hidle, hqueue]
      exact List.sublist_cons_self entry rest
  | accept entry rest hidle hqueue _ =>
      simp only [JobPool.State.waiting, hidle, hqueue]
      exact List.Sublist.refl _
  | start entry hadmitted _ =>
      simp only [JobPool.State.waiting, hadmitted]
      exact List.Sublist.refl _
  | work earlier job later _ store next _ hwork =>
      rw [BuildStep.buildsStarted hwork]
      exact List.Sublist.refl _

theorem progress_of_build (h : JobPool.Step (buildPhase config) maxJobs builds more builds') :
    builds'.store.progress = builds.store.progress := by
  cases h with
  | skip entry rest _ _ _ => rfl
  | accept entry rest _ _ _ => rfl
  | start entry _ _ => rfl
  | work earlier job later _ store next _ hwork => exact BuildStep.progress hwork

theorem waiting_of_done {β : Type} {pool : JobPool.State Store Url β} (h : pool.Done) :
    pool.waiting = [] := by
  rw [JobPool.State.waiting, h.admitted, h.queue]
  rfl

theorem unrecorded_of_done (h : pool.Done) : unrecorded pool = [] := by
  rw [unrecorded, waiting_of_done h, h.running]
  rfl

end Pools

/-- The batches that come after the one being processed. -/
def laterBatches (run : Run) : State → List (List Url)
  | .reading totalCount urls batch store => batchesFrom run store.progress totalCount batch urls
  | .cloning totalCount urls _ pool =>
      batchesFrom run (pool.store.progress ++ (unrecorded pool).flatMap echoed) totalCount [] urls
  | .building totalCount urls pool => batchesFrom run pool.store.progress totalCount [] urls
  | .finished _ => []

/-- The URLs of the batch that `clone_package` has not been called with. -/
def State.waitingClones : State → List Url
  | .cloning _ _ _ pool => pool.waiting
  | .reading .. | .building .. | .finished _ => []

/-- The URLs of the batch that may still be handed to `build_package`. -/
def State.waitingBuilds : State → List Url
  | .cloning _ _ batch _ => batch
  | .building _ _ pool => pool.waiting
  | .reading .. | .finished _ => []

/-- A step leaves the batches to come as they are, or opens the first of them. -/
theorem Step.later_cases (h : Step config run state more state') :
    laterBatches run state' = laterBatches run state ∨
      ∃ totalCount urls batch store,
        state' = .cloning totalCount urls batch (.start store batch) ∧
          laterBatches run state = batch :: laterBatches run state' := by
  cases h with
  | passOver totalCount url urls batch s hpass => exact .inl (batchesFrom_passOver hpass).symm
  | add totalCount url urls batch s hpass hbatch =>
      exact .inl (batchesFrom_add hpass hbatch).symm
  | full totalCount url urls batch s hpass hbatch =>
      exact .inr ⟨totalCount + 1, urls, batch ++ [url], s, rfl, batchesFrom_full hpass hbatch⟩
  | last totalCount batch s hbatch =>
      refine .inr ⟨totalCount, [], batch, s, rfl, ?_⟩
      rw [laterBatches, batchesFrom_last hbatch]
      rfl
  | clone totalCount urls batch _ pool pool' hpool =>
      exact .inl (batchesFrom_congr (mem_progress_unrecorded hpool) _ _ _)
  | cloned totalCount urls batch pool hdone =>
      refine .inl ?_
      simp only [laterBatches, unrecorded_of_done hdone, List.flatMap_nil, List.append_nil]
      rfl
  | build totalCount urls _ pool pool' hpool =>
      refine .inl ?_
      simp only [laterBatches, progress_of_build hpool]
  | built totalCount urls pool hdone => exact .inl rfl
  | finish totalCount s => exact .inl rfl

/-- The URLs that `clone_package` will be called with. -/
def State.planned (run : Run) (state : State) : List Url :=
  state.waitingClones ++ (laterBatches run state).flatten

/-- Calls of `clone_package` take the URLs of the batches in their order. -/
theorem Step.planned (h : Step config run state more state') :
    clonesStarted more ++ state'.planned run = state.planned run := by
  cases h with
  | passOver totalCount url urls batch s hpass =>
      rw [State.planned, State.planned, laterBatches, laterBatches, batchesFrom_passOver hpass]
      rfl
  | add totalCount url urls batch s hpass hbatch =>
      rw [State.planned, State.planned, laterBatches, laterBatches, batchesFrom_add hpass hbatch]
      rfl
  | full totalCount url urls batch s hpass hbatch =>
      rw [State.planned, State.planned, laterBatches, laterBatches, batchesFrom_full hpass hbatch]
      rfl
  | last totalCount batch s hbatch =>
      rw [State.planned, State.planned, laterBatches, laterBatches, batchesFrom_last hbatch]
      rfl
  | clone totalCount urls batch _ pool pool' hpool =>
      have hsame : laterBatches run (.cloning totalCount urls batch pool') =
          laterBatches run (.cloning totalCount urls batch pool) :=
        batchesFrom_congr (mem_progress_unrecorded hpool) _ _ _
      rw [State.planned, State.planned, hsame, ← List.append_assoc]
      exact congrArg (· ++ _) (clonesStarted_waiting hpool)
  | cloned totalCount urls batch pool hdone =>
      simp only [State.planned, State.waitingClones, laterBatches, unrecorded_of_done hdone,
        waiting_of_done hdone, List.flatMap_nil, List.append_nil]
      rfl
  | build totalCount urls _ pool pool' hpool =>
      rw [clonesStarted_of_build hpool, State.planned, State.planned, laterBatches, laterBatches,
        progress_of_build hpool]
      rfl
  | built totalCount urls pool hdone => rfl
  | finish totalCount s => rfl

/-- A batch is opened when everything before it has been started. -/
theorem sublist_opened {builds clones : List Url} (h : (builds ++ []).Sublist (clones ++ []))
    (batch : List Url) : (builds ++ batch).Sublist (clones ++ batch) := by
  rw [List.append_nil, List.append_nil] at h
  exact h.append_right batch

/-- Calls of `build_package` stay behind those of `clone_package`. -/
theorem Step.builds_sublist (h : Step config run state more state')
    (hsub : (buildsStarted events ++ state.waitingBuilds).Sublist
      (clonesStarted events ++ state.waitingClones)) :
    (buildsStarted (events ++ more) ++ state'.waitingBuilds).Sublist
      (clonesStarted (events ++ more) ++ state'.waitingClones) := by
  cases h with
  | passOver totalCount url urls batch s _ =>
      rw [List.append_nil]
      exact hsub
  | add totalCount url urls batch s _ _ =>
      rw [List.append_nil]
      exact hsub
  | full totalCount url urls batch s _ _ =>
      rw [List.append_nil]
      exact sublist_opened hsub _
  | last totalCount batch s hbatch =>
      rw [List.append_nil]
      exact sublist_opened hsub _
  | clone totalCount urls batch _ pool pool' hpool =>
      rw [clonesStarted_append, buildsStarted_append, buildsStarted_of_clone hpool,
        List.append_nil, List.append_assoc, State.waitingClones, clonesStarted_waiting hpool]
      exact hsub
  | cloned totalCount urls batch pool hdone =>
      rw [State.waitingClones, waiting_of_done hdone] at hsub
      rw [List.append_nil]
      exact hsub
  | build totalCount urls _ pool pool' hpool =>
      rw [clonesStarted_append, buildsStarted_append, clonesStarted_of_build hpool,
        List.append_nil, List.append_assoc]
      exact (List.Sublist.append_left (buildsStarted_waiting hpool) _).trans hsub
  | built totalCount urls pool hdone =>
      rw [State.waitingBuilds, waiting_of_done hdone] at hsub
      rw [List.append_nil]
      exact hsub
  | finish totalCount s =>
      rw [List.append_nil]
      exact hsub

/-- The calls of `clone_package` so far, with those to come, are the batches. -/
theorem Executes.planned (h : Executes config run initial events state) :
    clonesStarted events ++ state.planned run = (batches run initial).flatten := by
  refine Trace.invariant h
    (fun events state => clonesStarted events ++ state.planned run = (batches run initial).flatten)
    rfl ?_
  intro events state more state' ih hstep
  rw [clonesStarted_append, List.append_assoc, hstep.planned, ih]

/-- Every URL whose directory is handed to `build_package` was handed to `clone_package`
before, and as often. -/
theorem Executes.builds_sublist (h : Executes config run initial events state) :
    (buildsStarted events).Sublist (clonesStarted events ++ state.waitingClones) := by
  have hall : (buildsStarted events ++ state.waitingBuilds).Sublist
      (clonesStarted events ++ state.waitingClones) :=
    Trace.invariant h
      (fun events state => (buildsStarted events ++ state.waitingBuilds).Sublist
        (clonesStarted events ++ state.waitingClones))
      (List.Sublist.refl _) fun _ _ _ _ ih hstep => hstep.builds_sublist ih
  exact (List.sublist_append_left _ _).trans hall

/-- The batches to come are batches of the run. -/
theorem Executes.later_subset (h : Executes config run initial events state) :
    laterBatches run state ⊆ batches run initial := by
  refine Trace.invariant h (fun _ state => laterBatches run state ⊆ batches run initial)
    (List.Subset.refl _) ?_
  intro events state more state' ih hstep
  rcases hstep.later_cases with hsame | ⟨_, _, batch, _, _, hopen⟩
  · rw [hsame]
    exact ih
  · rw [hopen] at ih
    exact List.Subset.trans (List.subset_cons_self _ _) ih

/-- A batch that is no longer to come has been opened. -/
theorem Executes.opened (h : Executes config run initial events state) {batch : List Url}
    (hbatch : batch ∈ batches run initial) (hpast : batch ∉ laterBatches run state) :
    ∃ events totalCount urls store, Executes config run initial events
      (.cloning totalCount urls batch (.start store batch)) := by
  induction h with
  | refl => exact absurd hbatch hpast
  | @tail events s more s' htrace hstep ih =>
      rcases hstep.later_cases with hsame | ⟨totalCount, urls, opened, store, hstate, hopen⟩
      · rw [hsame] at hpast
        exact ih hpast
      · rcases Classical.em (batch = opened) with heq | hne
        · subst heq
          subst hstate
          exact ⟨_, totalCount, urls, store, htrace.tail hstep⟩
        · refine ih ?_
          rw [hopen]
          exact fun hmem => (List.mem_cons.mp hmem).elim hne hpast

theorem CloneStep.url {job next : CloneJob} (h : CloneStep config s job more s' (some next)) :
    next.url = job.url := by
  cases h <;> rfl

theorem BuildStep.url {job next : BuildJob} (h : BuildStep config s job more s' (some next)) :
    next.url = job.url := by
  cases h <;> rfl

section Lists

variable {url : Url}

/-- A line that may be handed out. -/
structure Proper (list : ListFile) (url : Url) : Prop where
  mem : url ∈ mapfile list.text
  notComment : list.isComment url = false
  nonempty : url ≠ []

/-- A proper line that is not in the log is handed out. -/
theorem Proper.passesOver {progress : List Url} (h : Proper run.list url)
    (hurl : isOption url = false) (hprogress : url ∉ progress) (totalCount : Nat) :
    passesOver run progress totalCount url = false := by
  have hcomment := h.notComment
  have hnonempty := h.nonempty
  simp [Static.passesOver, hurl, hprogress, hcomment, hnonempty]

theorem proper_of_passesOver {progress : List Url} {totalCount : Nat} (hmem : url ∈ mapfile run.list.text)
    (h : passesOver run progress totalCount url = false) : Proper run.list url := by
  unfold Static.passesOver at h
  rw [Bool.or_eq_false_iff, Bool.or_eq_false_iff] at h
  exact ⟨hmem, by simpa using h.1.1, by simpa using h.1.2⟩

theorem proper_append {list : ListFile} {batch : List Url} (h : ∀ url ∈ batch, Proper list url)
    (hurl : Proper list url) : ∀ other ∈ batch ++ [url], Proper list other := by
  intro other hother
  rcases List.mem_append.mp hother with hbatch | hlast
  · exact h other hbatch
  · rw [List.mem_singleton.mp hlast]
    exact hurl

/-- The lines left and the URLs of the batch come from the list. -/
def FromList (run : Run) : State → Prop
  | .reading _ urls batch _ => urls ⊆ mapfile run.list.text ∧ ∀ url ∈ batch, Proper run.list url
  | .cloning _ urls batch pool =>
      urls ⊆ mapfile run.list.text ∧ (∀ url ∈ batch, Proper run.list url) ∧
        pool.keys CloneJob.url id ⊆ batch
  | .building _ urls pool =>
      urls ⊆ mapfile run.list.text ∧ pool.keys BuildJob.url id ⊆ mapfile run.list.text
  | .finished _ => True

theorem keys_start {β : Type} (key : β → Url) (s : Store) (batch : List Url) :
    (JobPool.State.start s batch : JobPool.State Store Url β).keys key id = batch :=
  List.map_id batch

theorem Step.fromList (h : Step config run state more state') (hlist : FromList run state) :
    FromList run state' := by
  cases h with
  | passOver totalCount url urls batch s _ =>
      exact ⟨List.Subset.trans (List.subset_cons_self _ _) hlist.1, hlist.2⟩
  | add totalCount url urls batch s hpass _ =>
      refine ⟨List.Subset.trans (List.subset_cons_self _ _) hlist.1, ?_⟩
      exact proper_append hlist.2 (proper_of_passesOver (hlist.1 List.mem_cons_self) hpass)
  | full totalCount url urls batch s hpass _ =>
      refine ⟨List.Subset.trans (List.subset_cons_self _ _) hlist.1, ?_, ?_⟩
      · exact proper_append hlist.2 (proper_of_passesOver (hlist.1 List.mem_cons_self) hpass)
      · rw [keys_start]
        exact List.Subset.refl _
  | last totalCount batch s _ =>
      refine ⟨hlist.1, hlist.2, ?_⟩
      rw [keys_start]
      exact List.Subset.refl _
  | clone totalCount urls batch _ pool pool' hpool =>
      have hkeys : (pool'.keys CloneJob.url id).Sublist (pool.keys CloneJob.url id) :=
        hpool.keys_sublist (fun _ => rfl) fun _ _ _ _ _ hwork => CloneStep.url hwork
      exact ⟨hlist.1, hlist.2.1, List.Subset.trans hkeys.subset hlist.2.2⟩
  | cloned totalCount urls batch pool _ =>
      refine ⟨hlist.1, ?_⟩
      rw [keys_start]
      exact fun url hurl => (hlist.2.1 url hurl).mem
  | build totalCount urls _ pool pool' hpool =>
      have hkeys : (pool'.keys BuildJob.url id).Sublist (pool.keys BuildJob.url id) :=
        hpool.keys_sublist (fun _ => rfl) fun _ _ _ _ _ hwork => BuildStep.url hwork
      exact ⟨hlist.1, List.Subset.trans hkeys.subset hlist.2⟩
  | built totalCount urls pool _ => exact ⟨hlist.1, fun _ h => nomatch h⟩
  | finish totalCount s => trivial

theorem Executes.fromList (h : Executes config run initial events state) : FromList run state := by
  have hstart : FromList run (State.initial run initial) :=
    ⟨List.Subset.refl _, fun _ h => nomatch h⟩
  exact Trace.invariant h (fun _ state => FromList run state) hstart
    fun _ _ _ _ ih hstep => hstep.fromList ih

theorem mem_keys_of_running {β : Type} {key : β → Url} {pool : JobPool.State Store Url β}
    {job : β} (h : job ∈ pool.running) : key job ∈ pool.keys key id :=
  List.mem_append_left _ (List.mem_map_of_mem h)

end Lists

end Icflow.Static
