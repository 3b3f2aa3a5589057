import Icflow.Static.Batches

set_option autoImplicit false

/-!
# Runs in which the jobs take turns

Every run can be brought to its end by letting one job at a time run, whatever the
settings.  The clones of these runs fail without a trace and the builds fail, so that
they show what the script does and nothing that its commands may do.
-/

namespace Icflow.Static

open Icflow.Foundation Icflow.Collect

variable {config : Config} {run : Run}

@[simp] theorem cleaned_counter (name : PackageName) (s : Store) :
    (cleaned name s).counter = s.counter := by
  unfold cleaned
  split
  · rfl
  · split <;> rfl

section Jobs

/-- The files after a clone that has failed without a trace. -/
def attempted (config : Config) (url : Url) (counter : Nat) (s : Store) : Store :=
  { s with
    buildLog := s.buildLog ++ [.cloneFailed (packageName config.machine url) url]
    progress := s.progress ++ echoed url
    counter := some (counter + 1) }

variable {s s' s'' : Store} {events later : List Event}

theorem CloneStep.more {job next : CloneJob} (h : CloneStep config s job events s' (some next))
    (hrest : JobPool.Alone (clonePhase config) s' next later s'') :
    JobPool.Alone (clonePhase config) s job (events ++ later) s'' :=
  JobPool.Alone.more h hrest

theorem CloneStep.ends {job : CloneJob} (h : CloneStep config s job events s' none) :
    JobPool.Alone (clonePhase config) s job events s' :=
  JobPool.Alone.last h

theorem BuildStep.more {job next : BuildJob} (h : BuildStep config s job events s' (some next))
    (hrest : JobPool.Alone (buildPhase config) s' next later s'') :
    JobPool.Alone (buildPhase config) s job (events ++ later) s'' :=
  JobPool.Alone.more h hrest

theorem BuildStep.ends {job : BuildJob} (h : BuildStep config s job events s' none) :
    JobPool.Alone (buildPhase config) s job events s' :=
  JobPool.Alone.last h

theorem turn_clone {job next : CloneJob} (h : CloneStep config s job events s' (some next)) :
    Trace (JobPool.Turn (clonePhase config)) (s, job) events (s', next) :=
  .single h

/-- From the check of the rate limit on. -/
theorem alone_allowed (s : Store) (url : Url) (counter : Nat) :
    JobPool.Alone (clonePhase config) s ⟨url, .allowed counter⟩ [.passed url]
      (attempted config url counter s) := by
  have hremoves : false = true → false = true := id
  exact (CloneStep.pass s url counter).more
    ((CloneStep.fail s url counter 0 false false hremoves).more
      ((CloneStep.record _ url counter).more (CloneStep.increment _ url counter).ends))

/-- A call of `clone_package` that reads the clock at the time of the timestamp. -/
theorem alone_kept (s : Store) (url : Url) (hfree : s.counter.getD 0 < config.cloneRateLimit) :
    JobPool.Alone (clonePhase config) s ⟨url, .entered⟩ [.passed url]
      (attempted config url (s.counter.getD 0) s) := by
  have hrecent : s.timestamp.getD 0 - s.timestamp.getD 0 < windowLength := by
    rw [Int.sub_self]
    decide
  exact (CloneStep.readTimestamp s url (s.timestamp.getD 0)).more
    ((CloneStep.readCounter s url _).more
      ((CloneStep.keep s url _ _ hrecent hfree).more (alone_allowed s url _)))

/-- A call of `clone_package` that finds the limit reached. -/
theorem alone_full (s : Store) (url : Url) (hfull : config.cloneRateLimit ≤ s.counter.getD 0) :
    JobPool.Alone (clonePhase config) s ⟨url, .entered⟩ [.windowReset, .passed url]
      (attempted config url 0 { s with counter := some 0, timestamp := some 0 }) :=
  (CloneStep.readTimestamp s url 0).more ((CloneStep.readCounter s url _).more
    ((CloneStep.zero s url _ _ (.inr hfull)).more
      ((CloneStep.reset _ url 0).more (alone_allowed _ url 0))))

/-- Every call of `clone_package` ends. -/
theorem exists_alone_clone (s : Store) (url : Url) :
    ∃ events s', JobPool.Alone (clonePhase config) s ⟨url, .entered⟩ events s' := by
  rcases Nat.lt_or_ge (s.counter.getD 0) config.cloneRateLimit with hfree | hfull
  · exact ⟨_, _, alone_kept s url hfree⟩
  · exact ⟨_, _, alone_full s url hfull⟩

/-- A call of `build_package` whose build fails.  It leaves the log and the rate limit alone
and passes no check. -/
theorem exists_alone_build (config : Config) (s : Store) (url : Url) :
    ∃ events s', JobPool.Alone (buildPhase config) s ⟨url, .starting⟩ events s' ∧
      s'.counter = s.counter ∧ ∀ event ∈ events, ∃ name, event = .built name := by
  rcases Classical.em (present s (packageName config.machine url) = true ∨
    isOption (packageName config.machine url) = true) with hthere | habsent
  · refine ⟨[.built (packageName config.machine url)], _, (BuildStep.enter s url hthere).more
      ((BuildStep.fail s url).more (BuildStep.clean _ url).ends), ?_, ?_⟩
    · exact cleaned_counter _ _
    · intro event hevent
      exact ⟨_, List.mem_singleton.mp hevent⟩
  · rw [not_or, Bool.not_eq_true, Bool.not_eq_true] at habsent
    exact ⟨[], s, (BuildStep.refuse s url habsent.1 habsent.2).ends, rfl, fun _ h => nomatch h⟩

/-- The next URL of a batch is handed to `clone_package`. -/
theorem clone_started (s : Store) (url : Url) (queue : List Url) (others : List CloneJob)
    (hfree : others.length < config.maxJobs) :
    Trace (JobPool.Step (clonePhase config) config.maxJobs) ⟨s, url :: queue, none, others⟩
      [.cloneStarted url] ⟨s, queue, none, others ++ [⟨url, .entered⟩]⟩ :=
  JobPool.trace_started trivial queue others hfree

end Jobs

section Complete

/-- What can be kept while jobs take turns: from files at which it holds, every job has a run
of its own after which it holds again. -/
structure KeptByTurns (config : Config) (Inv : List Event → Store → Prop) : Prop where
  clone : ∀ url before s, Inv before s → ∃ events s',
    JobPool.Alone (clonePhase config) s ⟨url, .entered⟩ events s' ∧
      Inv (before ++ .cloneStarted url :: events) s'
  build : ∀ url before s, Inv before s → ∃ events s',
    JobPool.Alone (buildPhase config) s ⟨url, .starting⟩ events s' ∧
      Inv (before ++ .buildStarted url :: events) s'

theorem keptByTurns_true (config : Config) : KeptByTurns config fun _ _ => True where
  clone := fun url _ s _ =>
    let ⟨events, s', h⟩ := exists_alone_clone s url
    ⟨events, s', h, trivial⟩
  build := fun url _ s _ =>
    let ⟨events, s', h, _⟩ := exists_alone_build config s url
    ⟨events, s', h, trivial⟩

variable {Inv : List Event → Store → Prop}

/-- A run of the clone phase is a run of the script. -/
theorem cloning_trace (run : Run) (totalCount : Nat) (urls batch : List Url) {events : List Event}
    {pool pool' : JobPool.State Store Url CloneJob}
    (h : Trace (JobPool.Step (clonePhase config) config.maxJobs) pool events pool') :
    Trace (Step config run) (.cloning totalCount urls batch pool) events
      (.cloning totalCount urls batch pool') :=
  h.map (State.cloning totalCount urls batch) fun pool events pool' hstep =>
    Step.clone totalCount urls batch events pool pool' hstep

/-- A run of the build phase is a run of the script. -/
theorem building_trace (run : Run) (totalCount : Nat) (urls : List Url) {events : List Event}
    {pool pool' : JobPool.State Store Url BuildJob}
    (h : Trace (JobPool.Step (buildPhase config) config.maxJobs) pool events pool') :
    Trace (Step config run) (.building totalCount urls pool) events
      (.building totalCount urls pool') :=
  h.map (State.building totalCount urls) fun pool events pool' hstep =>
    Step.build totalCount urls events pool pool' hstep

/-- The rest of a batch can be cloned and the batch built. -/
theorem KeptByTurns.exists_batch (h : KeptByTurns config Inv) (hjobs : 0 < config.maxJobs)
    (run : Run) (totalCount : Nat) (urls batch queue : List Url) {before : List Event} {s : Store}
    (hinv : Inv before s) :
    ∃ events s', Trace (Step config run) (.cloning totalCount urls batch ⟨s, queue, none, []⟩)
      events (.reading totalCount urls [] s') ∧ Inv (before ++ events) s' := by
  obtain ⟨clones, s₁, hclones, hinv₁⟩ : ∃ clones s₁,
      Trace (JobPool.Step (clonePhase config) config.maxJobs) ⟨s, queue, none, []⟩ clones
        ⟨s₁, [], none, []⟩ ∧ Inv (before ++ clones) s₁ :=
    JobPool.exists_trace_all Inv queue [] hjobs
      (fun url _ before s hinv _ => h.clone url before s hinv) before s hinv
  obtain ⟨builds, s₂, hbuilds, hinv₂⟩ : ∃ builds s₂,
      Trace (JobPool.Step (buildPhase config) config.maxJobs) ⟨s₁, batch, none, []⟩ builds
        ⟨s₂, [], none, []⟩ ∧ Inv (before ++ clones ++ builds) s₂ :=
    JobPool.exists_trace_all Inv batch [] hjobs
      (fun url _ before s hinv _ => h.build url before s hinv) _ s₁ hinv₁
  refine ⟨clones ++ builds, s₂, ?_, ?_⟩
  · have hcloning := cloning_trace run totalCount urls batch hclones
    have hbuilding := building_trace run totalCount urls hbuilds
    have hturn : Step config run (.cloning totalCount urls batch ⟨s₁, [], none, []⟩) []
        (.building totalCount urls (.start s₁ batch)) :=
      .cloned totalCount urls batch _ ⟨rfl, rfl, rfl⟩
    have hnext : Step config run (.building totalCount urls ⟨s₂, [], none, []⟩) []
        (.reading totalCount urls [] s₂) := .built totalCount urls _ ⟨rfl, rfl, rfl⟩
    have hall := hcloning.trans (.head hturn (hbuilding.tail hnext))
    rw [List.nil_append, List.append_nil] at hall
    exact hall
  · rw [← List.append_assoc]
    exact hinv₂

/-- The rest of a run can be brought to its end. -/
theorem KeptByTurns.exists_finished (h : KeptByTurns config Inv) (hjobs : 0 < config.maxJobs)
    (run : Run) (totalCount : Nat) (urls batch : List Url) (before : List Event) (s : Store)
    (hinv : Inv before s) :
    ∃ events s', Trace (Step config run) (.reading totalCount urls batch s) events
      (.finished s') ∧ Inv (before ++ events) s' := by
  induction urls generalizing totalCount batch before s with
  | nil =>
      rcases Classical.em (batch = []) with rfl | hbatch
      · refine ⟨[], s, .single (.finish totalCount s), ?_⟩
        rw [List.append_nil]
        exact hinv
      · obtain ⟨events, s', hrun, hinv'⟩ :=
          h.exists_batch hjobs run totalCount [] batch batch hinv
        have hend := hrun.tail (Step.finish totalCount s')
        rw [List.append_nil] at hend
        exact ⟨events, s', .head (Step.last totalCount batch s hbatch) hend, hinv'⟩
  | cons url urls ih =>
      cases hpass : passesOver run s.progress (totalCount + 1) url with
      | true =>
          obtain ⟨events, s', hrun, hinv'⟩ := ih (totalCount + 1) batch before s hinv
          exact ⟨events, s', .head (.passOver totalCount url urls batch s hpass) hrun, hinv'⟩
      | false =>
          rcases Nat.lt_or_ge (batch ++ [url]).length batchSize with hbatch | hbatch
          · obtain ⟨events, s', hrun, hinv'⟩ := ih (totalCount + 1) (batch ++ [url]) before s hinv
            exact ⟨events, s', .head (.add totalCount url urls batch s hpass hbatch) hrun, hinv'⟩
          · obtain ⟨events, s₁, hrun, hinv₁⟩ := h.exists_batch hjobs run (totalCount + 1) urls
              (batch ++ [url]) (batch ++ [url]) hinv
            obtain ⟨more, s₂, hrest, hinv₂⟩ := ih (totalCount + 1) [] _ s₁ hinv₁
            have hall := Trace.head (.full totalCount url urls batch s hpass hbatch)
              (hrun.trans hrest)
            refine ⟨events ++ more, s₂, hall, ?_⟩
            rw [← List.append_assoc]
            exact hinv₂

/-- Every run can be brought to its end. -/
theorem exists_executes (run : Run) (initial : Store) (hjobs : 0 < config.maxJobs) :
    ∃ events s, Executes config run initial events (.finished s) := by
  obtain ⟨events, s, hrun, _⟩ := (keptByTurns_true config).exists_finished hjobs run 0
    (mapfile run.list.text) [] [] (setUp run.now initial) trivial
  exact ⟨events, s, hrun⟩

end Complete

end Icflow.Static
