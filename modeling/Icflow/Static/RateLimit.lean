import Icflow.Static.Sequential

set_option autoImplicit false

/-!
# The clone rate limit

`enforce_clone_rate_limit` reads the counter before the clone and
`increment_clone_counter` writes it back after it.  Jobs that run one by one see each
other's count, so that no more than `CLONE_RATE_LIMIT` pass in a window.  Two jobs that
overlap count as one, and with more URLs than the limit some order of steps lets one
too many pass.
-/

namespace Icflow.Static

open Icflow.Foundation Icflow.Collect

variable {config : Config} {run : Run} {initial s s' : Store} {state state' : State}
  {events more : List Event}

/-- Count the jobs that pass, from the last reset on. -/
def tally (count : Nat) : Event → Nat
  | .windowReset => 0
  | .passed _ => count + 1
  | .cloneStarted _ | .buildStarted _ | .cloned _ | .built _ => count

/-- The number of jobs that have passed since the window was reset. -/
def passesSinceReset (events : List Event) : Nat := events.foldl tally 0

/-- At no moment have more than `limit` jobs passed since the last reset. -/
def WithinLimit (limit : Nat) (events : List Event) : Prop :=
  ∀ earlier later, events = earlier ++ later → passesSinceReset earlier ≤ limit

theorem passesSinceReset_append (events more : List Event) :
    passesSinceReset (events ++ more) = more.foldl tally (passesSinceReset events) :=
  List.foldl_append

theorem WithinLimit.last {limit : Nat} (h : WithinLimit limit events) :
    passesSinceReset events ≤ limit :=
  h events [] (List.append_nil events).symm

theorem WithinLimit.left {limit : Nat} (h : WithinLimit limit (events ++ more)) :
    WithinLimit limit events := by
  intro earlier later heq
  exact h earlier (later ++ more) (by rw [heq, List.append_assoc])

theorem WithinLimit.append {limit : Nat} (h : WithinLimit limit events) (hmore : more.length ≤ 1)
    (hle : passesSinceReset (events ++ more) ≤ limit) : WithinLimit limit (events ++ more) := by
  intro earlier later heq
  rcases List.append_eq_append_iff.mp heq with ⟨rest, hearlier, hrest⟩ | ⟨rest, hevents, _⟩
  · match rest, hrest with
    | [], _ =>
        rw [hearlier, List.append_nil]
        exact h.last
    | event :: rest, hrest =>
        rw [hrest, List.cons_append, List.length_cons, List.length_append] at hmore
        have hlater : later = [] := List.eq_nil_of_length_eq_zero (by omega)
        rw [hlater, List.append_nil] at heq
        rw [← heq]
        exact hle
  · exact h earlier rest hevents

theorem withinLimit_nil (limit : Nat) : WithinLimit limit [] := by
  intro earlier later heq
  rw [(List.append_eq_nil_iff.mp heq.symm).1]
  exact Nat.zero_le limit

section Events

theorem CloneStep.length_events {job : CloneJob} {next : Option CloneJob}
    (h : CloneStep config s job more s' next) : more.length ≤ 1 := by
  cases h <;> simp

theorem BuildStep.length_events {job : BuildJob} {next : Option BuildJob}
    (h : BuildStep config s job more s' next) : more.length ≤ 1 := by
  cases h <;> simp

theorem Step.length_events (h : Step config run state more state') : more.length ≤ 1 := by
  cases h with
  | clone totalCount urls batch _ pool pool' hpool =>
      cases hpool with
      | work earlier job later _ store next _ hwork => exact CloneStep.length_events hwork
      | skip | accept | start => simp
  | build totalCount urls _ pool pool' hpool =>
      cases hpool with
      | work earlier job later _ store next _ hwork => exact BuildStep.length_events hwork
      | skip | accept | start => simp
  | _ => exact Nat.zero_le 1

end Events

section Overlapping

/-- The job has not passed the check. -/
def CloneJob.beforePass (job : CloneJob) : Bool :=
  match job.phase with
  | .entered | .timed _ | .counted .. | .resetting | .allowed _ => true
  | .cloning .. | .unrecorded _ | .recorded _ => false

/-- A job has passed the check. -/
def Event.isPass : Event → Bool
  | .passed _ => true
  | .cloneStarted _ | .buildStarted _ | .windowReset | .cloned _ | .built _ => false

/-- The running jobs that have not passed the check. -/
def State.beforePass : State → Nat
  | .cloning _ _ _ pool => pool.running.countP CloneJob.beforePass
  | .reading .. | .building .. | .finished _ => 0

theorem countP_cons_append {α : Type} (test : α → Bool) (first : α) (rest : List α) :
    (first :: rest).countP test = [first].countP test + rest.countP test :=
  @List.countP_append α test [first] rest

theorem foldl_tally_le (events : List Event) (count : Nat) :
    events.foldl tally count ≤ count + events.countP Event.isPass := by
  induction events generalizing count with
  | nil => exact Nat.le_refl _
  | cons event events ih =>
      have hrest := ih (tally count event)
      have hone : tally count event ≤ count + [event].countP Event.isPass := by
        cases event <;> simp [tally, Event.isPass]
      rw [List.foldl_cons, countP_cons_append]
      omega

/-- A job passes once. -/
theorem CloneStep.countP_beforePass {job : CloneJob} {next : Option CloneJob}
    (h : CloneStep config s job more s' next) :
    more.countP Event.isPass + next.toList.countP CloneJob.beforePass =
      [job].countP CloneJob.beforePass := by
  cases h <;> rfl

theorem BuildStep.countP_isPass {job : BuildJob} {next : Option BuildJob}
    (h : BuildStep config s job more s' next) : more.countP Event.isPass = 0 := by
  cases h <;> rfl

/-- Every job that passes was started, and passes once. -/
theorem Step.countP_isPass (h : Step config run state more state') :
    more.countP Event.isPass + state'.beforePass ≤ (clonesStarted more).length + state.beforePass := by
  cases h with
  | clone totalCount urls batch _ pool pool' hpool =>
      cases hpool with
      | skip entry rest _ _ _ => exact Nat.le_refl _
      | accept entry rest _ _ _ => exact Nat.le_refl _
      | start entry _ _ =>
          have hlaunch : [(clonePhase config).launch entry].countP Event.isPass = 0 := rfl
          have hspawn : [(clonePhase config).spawn entry].countP CloneJob.beforePass = 1 := rfl
          have hstarted : (clonesStarted [(clonePhase config).launch entry]).length = 1 := rfl
          simp only [State.beforePass, List.countP_append]
          omega
      | work earlier job later _ store next hrunning hwork =>
          have hjob := CloneStep.countP_beforePass hwork
          simp only [State.beforePass, hrunning, List.countP_append,
            countP_cons_append CloneJob.beforePass job later]
          omega
  | build totalCount urls _ pool pool' hpool =>
      cases hpool with
      | skip entry rest _ _ _ => exact Nat.le_refl _
      | accept entry rest _ _ _ => exact Nat.le_refl _
      | start entry _ _ => exact Nat.le_refl _
      | work earlier job later _ store next _ hwork =>
          rw [BuildStep.countP_isPass hwork]
          exact Nat.zero_le _
  | cloned totalCount urls batch pool hdone => exact Nat.zero_le _
  | _ => exact Nat.le_refl _

theorem Executes.countP_isPass (h : Executes config run initial events state) :
    events.countP Event.isPass + state.beforePass ≤ (clonesStarted events).length := by
  refine Trace.invariant h
    (fun events state =>
      events.countP Event.isPass + state.beforePass ≤ (clonesStarted events).length)
    (Nat.le_refl 0) ?_
  intro events state more state' ih hstep
  have hmore := hstep.countP_isPass
  rw [List.countP_append, clonesStarted_append, List.length_append]
  omega

/-- No more jobs pass than URLs are handed out. -/
theorem Executes.withinLimit_of_length (h : Executes config run initial events state)
    {limit : Nat} (hlength : (batches run initial).flatten.length ≤ limit) :
    WithinLimit limit events := by
  intro earlier later heq
  have hstarted := h.countP_isPass
  have hplanned := congrArg List.length h.planned
  have htally := foldl_tally_le earlier 0
  rw [List.length_append] at hplanned
  rw [heq, List.countP_append, ← heq] at hstarted
  unfold passesSinceReset
  omega

end Overlapping

section OneByOne

/-- What a job that runs alone relies on: `count` jobs have passed in the window, and the
counter file reads `counter`. -/
def ClonePhase.Sound (limit count counter : Nat) : ClonePhase → Prop
  | .entered | .timed _ => count ≤ counter
  | .counted _ own => count ≤ counter ∧ own = counter
  | .resetting => counter = 0
  | .allowed own => count ≤ own ∧ own < limit
  | .cloning own _ _ | .unrecorded own | .recorded own => count ≤ own + 1

/-- At most one job runs, and the counter does not lag behind. -/
def SoundJobs (limit count counter : Nat) : List CloneJob → Prop
  | [] => count ≤ counter
  | [job] => job.phase.Sound limit count counter
  | _ :: _ :: _ => False

/-- The counter does not lag behind. -/
def State.Sound (limit count : Nat) (state : State) : Prop :=
  match state with
  | .cloning _ _ _ pool => SoundJobs limit count (pool.store.counter.getD 0) pool.running
  | .reading .. | .building .. | .finished _ => count ≤ state.store.counter.getD 0

@[simp] theorem abandoned_counter (name : PackageName) (removes : Bool) (s : Store) :
    (abandoned name removes s).counter = s.counter := by
  unfold abandoned
  split <;> rfl

theorem CloneStep.sound {job : CloneJob} {next : Option CloneJob} {count : Nat}
    (h : CloneStep config s job more s' next) (hlimit : 0 < config.cloneRateLimit)
    (hcount : count ≤ config.cloneRateLimit)
    (hsound : job.phase.Sound config.cloneRateLimit count (s.counter.getD 0)) :
    more.foldl tally count ≤ config.cloneRateLimit ∧
      SoundJobs config.cloneRateLimit (more.foldl tally count) (s'.counter.getD 0)
        next.toList := by
  cases h with
  | readTimestamp url now => exact ⟨hcount, hsound⟩
  | readCounter url elapsed => exact ⟨hcount, hsound, rfl⟩
  | zero url elapsed counter _ => exact ⟨hcount, rfl⟩
  | reset url now => exact ⟨Nat.zero_le _, Nat.zero_le _, hlimit⟩
  | keep url elapsed counter _ hfree => exact ⟨hcount, hsound.2 ▸ hsound.1, hfree⟩
  | pass url counter => exact ⟨Nat.lt_of_le_of_lt hsound.1 hsound.2, Nat.succ_le_succ hsound.1⟩
  | make url counter retries _ => exact ⟨hcount, hsound⟩
  | succeed url counter retries made _ => exact ⟨hcount, hsound⟩
  | retry url counter retries made removes _ _ => exact ⟨hcount, hsound⟩
  | giveUp url counter retries made removes _ _ => exact ⟨hcount, hsound⟩
  | fail url counter retries made removes _ => exact ⟨hcount, hsound⟩
  | record url counter => exact ⟨hcount, hsound⟩
  | increment url counter => exact ⟨hcount, hsound⟩

theorem BuildStep.tally {job : BuildJob} {next : Option BuildJob}
    (h : BuildStep config s job more s' next) (count : Nat) : more.foldl tally count = count := by
  cases h <;> rfl

theorem BuildStep.counter {job : BuildJob} {next : Option BuildJob}
    (h : BuildStep config s job more s' next) : s'.counter = s.counter := by
  cases h with
  | clean url => exact cleaned_counter _ _
  | _ => rfl

theorem SoundJobs.single {limit count counter : Nat} {earlier later : List CloneJob}
    {job : CloneJob} (h : SoundJobs limit count counter (earlier ++ job :: later)) :
    earlier = [] ∧ later = [] ∧ job.phase.Sound limit count counter := by
  match earlier, later, h with
  | [], [], h => exact ⟨rfl, rfl, h⟩
  | [], _ :: _, h => exact h.elim
  | _ :: [], _, h => exact h.elim
  | _ :: _ :: _, _, h => exact h.elim

/-- With one job at a time, the counter never lags behind and no job too many passes. -/
theorem Step.sound {count : Nat} (h : Step config run state more state')
    (hjobs : config.maxJobs ≤ 1) (hlimit : 0 < config.cloneRateLimit)
    (hcount : count ≤ config.cloneRateLimit) (hsound : state.Sound config.cloneRateLimit count) :
    more.foldl tally count ≤ config.cloneRateLimit ∧
      state'.Sound config.cloneRateLimit (more.foldl tally count) := by
  cases h with
  | clone totalCount urls batch _ pool pool' hpool =>
      cases hpool with
      | skip entry rest _ _ _ => exact ⟨hcount, hsound⟩
      | accept entry rest _ _ _ => exact ⟨hcount, hsound⟩
      | start entry _ hfree =>
          have hidle : pool.running = [] := List.eq_nil_of_length_eq_zero (by omega)
          rw [State.Sound, hidle] at hsound
          rw [State.Sound, hidle]
          exact ⟨hcount, hsound⟩
      | work earlier job later _ store next hrunning hwork =>
          rw [State.Sound, hrunning] at hsound
          obtain ⟨rfl, rfl, hjob⟩ := SoundJobs.single hsound
          rw [State.Sound, List.nil_append, List.append_nil]
          exact CloneStep.sound hwork hlimit hcount hjob
  | cloned totalCount urls batch pool hdone =>
      rw [State.Sound, hdone.running] at hsound
      exact ⟨hcount, hsound⟩
  | build totalCount urls _ pool pool' hpool =>
      cases hpool with
      | skip entry rest _ _ _ => exact ⟨hcount, hsound⟩
      | accept entry rest _ _ _ => exact ⟨hcount, hsound⟩
      | start entry _ _ => exact ⟨hcount, hsound⟩
      | work earlier job later _ store next _ hwork =>
          have hkept : (State.building totalCount urls
              ⟨store, pool.queue, pool.admitted, earlier ++ next.toList ++ later⟩).Sound
                config.cloneRateLimit count := by
            unfold State.Sound at hsound ⊢
            simp only [State.store] at hsound ⊢
            rw [BuildStep.counter hwork]
            exact hsound
          rw [BuildStep.tally hwork]
          exact ⟨hcount, hkept⟩
  | _ => exact ⟨hcount, hsound⟩

theorem Executes.withinLimit_of_single (h : Executes config run initial events state)
    (hjobs : config.maxJobs ≤ 1) (hlimit : 0 < config.cloneRateLimit) :
    WithinLimit config.cloneRateLimit events := by
  have hall : WithinLimit config.cloneRateLimit events ∧
      state.Sound config.cloneRateLimit (passesSinceReset events) := by
    refine Trace.invariant h
      (fun events state => WithinLimit config.cloneRateLimit events ∧
        state.Sound config.cloneRateLimit (passesSinceReset events))
      ⟨withinLimit_nil _, Nat.zero_le _⟩ ?_
    intro events state more state' ih hstep
    obtain ⟨hle, hsound⟩ := hstep.sound hjobs hlimit ih.1.last ih.2
    rw [← passesSinceReset_append] at hle hsound
    exact ⟨ih.1.append hstep.length_events hle, hsound⟩
  exact hall.1

end OneByOne

section Overrun

/-- The first batch is full or the only one. -/
theorem batchesFrom_first {progress urls batch first : List Url} {totalCount : Nat}
    {rest : List (List Url)}
    (h : batchesFrom run progress totalCount batch urls = first :: rest) :
    batchSize ≤ first.length ∨ rest = [] := by
  induction urls generalizing totalCount batch with
  | nil =>
      unfold batchesFrom at h
      split at h
      · cases h
      · cases h
        exact .inr rfl
  | cons url urls ih =>
      unfold batchesFrom at h
      split at h
      · exact ih h
      · split at h
        · exact ih h
        · rename_i hfull
          cases h
          exact .inl (Nat.le_of_not_lt hfull)

/-- The first batch is reached without an event. -/
theorem exists_first {urls batch first : List Url} {totalCount : Nat} {rest : List (List Url)}
    (h : batchesFrom run s.progress totalCount batch urls = first :: rest) :
    ∃ totalCount' urls', Trace (Step config run) (.reading totalCount urls batch s) []
      (.cloning totalCount' urls' first (.start s first)) := by
  induction urls generalizing totalCount batch with
  | nil =>
      unfold batchesFrom at h
      split at h
      · cases h
      · rename_i hbatch
        cases h
        exact ⟨totalCount, [], .single (.last totalCount _ s hbatch)⟩
  | cons url urls ih =>
      cases hpass : passesOver run s.progress (totalCount + 1) url with
      | true =>
          rw [batchesFrom_passOver hpass] at h
          obtain ⟨totalCount', urls', hrun⟩ := ih h
          exact ⟨totalCount', urls', .head (Step.passOver totalCount url urls batch s hpass) hrun⟩
      | false =>
          rcases Nat.lt_or_ge (batch ++ [url]).length batchSize with hbatch | hbatch
          · rw [batchesFrom_add hpass hbatch] at h
            obtain ⟨totalCount', urls', hrun⟩ := ih h
            exact ⟨totalCount', urls',
              .head (Step.add totalCount url urls batch s hpass hbatch) hrun⟩
          · rw [batchesFrom_full hpass hbatch] at h
            cases h
            exact ⟨totalCount + 1, urls,
              .single (Step.full totalCount url urls batch s hpass hbatch)⟩

/-- The files after a reset. -/
def reopened (s : Store) : Store :=
  { s with counter := some 0, timestamp := some (s.timestamp.getD 0 + windowLength) }

/-- The files after two overlapping clones, one of which has reset the window. -/
def overlapped (config : Config) (first second : Url) (s : Store) : Store :=
  attempted config first 0 (attempted config second 0 (reopened s))

/-- Both jobs read an empty counter before either writes it back. -/
theorem overlapped_trace (hjobs : 1 < config.maxJobs) (hlimit : 0 < config.cloneRateLimit)
    (s : Store) (first second : Url) (queue : List Url) :
    Trace (JobPool.Step (clonePhase config) config.maxJobs)
      ⟨s, first :: second :: queue, none, []⟩
      [.cloneStarted first, .cloneStarted second, .windowReset, .passed second, .passed first]
      ⟨overlapped config first second s, queue, none, []⟩ := by
  have hone : ([] : List CloneJob).length < config.maxJobs := Nat.lt_trans Nat.zero_lt_one hjobs
  have hwindow : windowLength ≤ s.timestamp.getD 0 + windowLength - s.timestamp.getD 0 := by omega
  have hsecond : Trace (JobPool.Turn (clonePhase config)) (s, ⟨second, .entered⟩) [.windowReset]
      (reopened s, ⟨second, .allowed 0⟩) :=
    (turn_clone (.readTimestamp s second _)).trans ((turn_clone (.readCounter s second _)).trans
      ((turn_clone (.zero s second _ _ (.inl hwindow))).trans (turn_clone (.reset _ second _))))
  have hrecent : s.timestamp.getD 0 + windowLength - (s.timestamp.getD 0 + windowLength) <
      windowLength := by
    rw [Int.sub_self]
    decide
  have hfirst : Trace (JobPool.Turn (clonePhase config)) (reopened s, ⟨first, .entered⟩) []
      (reopened s, ⟨first, .allowed 0⟩) :=
    (turn_clone (.readTimestamp (reopened s) first (s.timestamp.getD 0 + windowLength))).trans
      ((turn_clone (.readCounter (reopened s) first _)).trans
        (turn_clone (.keep (reopened s) first _ _ hrecent hlimit)))
  have hstarted := (clone_started s first (second :: queue) [] hone).trans
    (clone_started s second queue [⟨first, .entered⟩] hjobs)
  refine hstarted.trans ?_
  refine (JobPool.trace_turns hsecond queue none [⟨first, .entered⟩] []).trans ?_
  refine (JobPool.trace_turns hfirst queue none [] [⟨second, .allowed 0⟩]).trans ?_
  refine ((alone_allowed (reopened s) second 0).trace queue none [⟨first, .allowed 0⟩]).trans ?_
  exact (alone_allowed (attempted config second 0 (reopened s)) first 0).trace queue none []

/-- One job too many has passed, or the counter is one behind and the window has not been
reset since the first of the jobs. -/
def Lagging (limit : Nat) (events : List Event) (s : Store) : Prop :=
  ¬ WithinLimit limit events ∨
    ∃ count, s.counter = some count ∧ passesSinceReset events = count + 1 ∧
      (clonesStarted events).length = count + 1

theorem lagging_clone (url : Url) (before : List Event) (s : Store)
    (h : Lagging config.cloneRateLimit before s) :
    ∃ events s', JobPool.Alone (clonePhase config) s ⟨url, .entered⟩ events s' ∧
      Lagging config.cloneRateLimit (before ++ .cloneStarted url :: events) s' := by
  rcases h with hover | ⟨count, hcounter, hpasses, hstarted⟩
  · obtain ⟨events, s', hrun⟩ := exists_alone_clone s url
    exact ⟨events, s', hrun, .inl fun h => hover h.left⟩
  rcases Nat.lt_or_ge count config.cloneRateLimit with hfree | hfull
  · have hread : s.counter.getD 0 = count := by rw [hcounter, Option.getD_some]
    refine ⟨_, _, alone_kept s url (hread.symm ▸ hfree), .inr ⟨count + 1, ?_, ?_, ?_⟩⟩
    · rw [hread]
      rfl
    · rw [passesSinceReset_append, hpasses]
      rfl
    · rw [clonesStarted_append, List.length_append, hstarted]
      rfl
  · obtain ⟨events, s', hrun⟩ := exists_alone_clone s url
    refine ⟨events, s', hrun, .inl fun h => ?_⟩
    have hle := h.left.last
    omega

theorem foldl_tally_built (events : List Event) (hbuilt : ∀ event ∈ events, ∃ name, event = .built name)
    (count : Nat) : events.foldl tally count = count := by
  induction events with
  | nil => rfl
  | cons event events ih =>
      obtain ⟨name, rfl⟩ := hbuilt _ List.mem_cons_self
      exact ih fun event hevent => hbuilt event (List.mem_cons_of_mem _ hevent)

theorem clonesStarted_built (events : List Event)
    (hbuilt : ∀ event ∈ events, ∃ name, event = .built name) : clonesStarted events = [] := by
  refine List.filterMap_eq_nil_iff.mpr ?_
  intro event hevent
  obtain ⟨name, rfl⟩ := hbuilt event hevent
  rfl

theorem lagging_build (url : Url) (before : List Event) (s : Store)
    (h : Lagging config.cloneRateLimit before s) :
    ∃ events s', JobPool.Alone (buildPhase config) s ⟨url, .starting⟩ events s' ∧
      Lagging config.cloneRateLimit (before ++ .buildStarted url :: events) s' := by
  obtain ⟨events, s', hrun, hkept, hbuilt⟩ := exists_alone_build config s url
  refine ⟨events, s', hrun, ?_⟩
  rcases h with hover | ⟨count, hcounter, hpasses, hstarted⟩
  · exact .inl fun h => hover h.left
  · refine .inr ⟨count, hkept.trans hcounter, ?_, ?_⟩
    · rw [passesSinceReset_append, List.foldl_cons, hpasses]
      exact foldl_tally_built events hbuilt _
    · have hnone : clonesStarted (.buildStarted url :: events) = [] := clonesStarted_built events hbuilt
      rw [clonesStarted_append, hnone, List.append_nil, hstarted]

theorem keptByTurns_lagging (config : Config) :
    KeptByTurns config (Lagging config.cloneRateLimit) where
  clone := lagging_clone
  build := lagging_build

/-- With two URLs to hand out, the first batch has two. -/
theorem exists_pair (run : Run) (initial : Store)
    (hmany : 1 < (batches run initial).flatten.length) :
    ∃ first second queue rest, batches run initial = (first :: second :: queue) :: rest := by
  cases hbatches : batches run initial with
  | nil =>
      rw [hbatches] at hmany
      exact absurd hmany (Nat.not_lt_zero _)
  | cons batch rest =>
      have hlength : 1 < batch.length := by
        rcases batchesFrom_first hbatches with hfull | hlast
        · exact Nat.lt_of_lt_of_le (by decide) hfull
        · rw [hbatches, hlast, List.flatten_singleton] at hmany
          exact hmany
      match batch, hlength with
      | first :: second :: queue, _ => exact ⟨first, second, queue, rest, rfl⟩

/-- With more URLs than the limit, some order of steps lets one too many pass. -/
theorem exists_overrun (run : Run) (initial : Store) (hjobs : 1 < config.maxJobs)
    (hlimit : 0 < config.cloneRateLimit)
    (hmany : config.cloneRateLimit < (batches run initial).flatten.length) :
    ∃ events state, Executes config run initial events state ∧
      ¬ WithinLimit config.cloneRateLimit events := by
  obtain ⟨first, second, queue, rest, hbatches⟩ := exists_pair run initial (by omega)
  obtain ⟨totalCount, urls, hopened⟩ : ∃ totalCount urls,
      Executes config run initial [] (.cloning totalCount urls (first :: second :: queue)
        (.start (setUp run.now initial) (first :: second :: queue))) := exists_first hbatches
  have hpool := overlapped_trace hjobs hlimit (setUp run.now initial) first second queue
  have hover := hopened.trans (cloning_trace run totalCount urls (first :: second :: queue) hpool)
  have hkept := keptByTurns_lagging config
  have hlagging : Lagging config.cloneRateLimit
      [.cloneStarted first, .cloneStarted second, .windowReset, .passed second, .passed first]
      (overlapped config first second (setUp run.now initial)) := .inr ⟨1, rfl, rfl, rfl⟩
  obtain ⟨events, s₁, hbatch, hlagging₁⟩ := hkept.exists_batch (Nat.lt_trans Nat.zero_lt_one hjobs) run
    totalCount urls (first :: second :: queue) queue hlagging
  obtain ⟨later, s₂, hrest, hlagging₂⟩ := hkept.exists_finished (Nat.lt_trans Nat.zero_lt_one hjobs)
    run totalCount urls [] _ s₁ hlagging₁
  have hall := (hover.trans hbatch).trans hrest
  refine ⟨_, _, hall, ?_⟩
  rcases hlagging₂ with hover | ⟨count, _, hpasses, hstarted⟩
  · exact hover
  · intro hwithin
    have hle := hwithin.last
    have hplanned := congrArg List.length (Executes.planned hall)
    rw [State.planned, State.waitingClones, laterBatches, List.flatten_nil, List.append_nil,
      List.append_nil] at hplanned
    rw [List.nil_append] at hle hplanned
    omega

end Overrun

/-- In every order of steps the limit holds exactly when the jobs run one by one or no more URLs
than the limit are handed out. -/
theorem withinLimit_iff (config : Config) (run : Run) (initial : Store)
    (hlimit : 0 < config.cloneRateLimit) :
    (∀ events state, Executes config run initial events state →
        WithinLimit config.cloneRateLimit events) ↔
      config.maxJobs ≤ 1 ∨ (batches run initial).flatten.length ≤ config.cloneRateLimit := by
  constructor
  · intro h
    rcases Nat.lt_or_ge 1 config.maxJobs with hjobs | hjobs
    · refine .inr (Nat.le_of_not_lt ?_)
      intro hmany
      obtain ⟨events, state, hrun, hover⟩ := exists_overrun run initial hjobs hlimit hmany
      exact hover (h events state hrun)
    · exact .inl hjobs
  · intro h events state hrun
    rcases h with hjobs | hfew
    · exact hrun.withinLimit_of_single hjobs hlimit
    · exact hrun.withinLimit_of_length hfew

/-- One URL stays within the default limit. -/
theorem withinLimit_iff_sample :
    0 < sampleConfig.cloneRateLimit ∧
      ∀ events state, Executes sampleConfig singleRun .empty events state →
        WithinLimit sampleConfig.cloneRateLimit events :=
  ⟨by decide, (withinLimit_iff sampleConfig singleRun .empty (by decide)).mpr (.inr (by decide))⟩

/-- Two URLs and a limit of one. -/
def doubleRun : Run where
  list := ⟨sampleUrl ++ '\n' :: ("https://h/q.git".toList ++ ['\n']), fun _ => true⟩
  grepFinds := fun _ => false
  now := 0

/-- Both jobs read the counter before either writes it back. -/
theorem not_withinLimit_overlapping :
    ¬ ∀ events state, Executes { sampleConfig with cloneRateLimit := 1 } doubleRun .empty events
      state → WithinLimit 1 events := by
  intro h
  have hjobs : 1 < ({ sampleConfig with cloneRateLimit := 1 } : Config).maxJobs := by decide
  obtain ⟨events, state, hrun, hover⟩ :=
    exists_overrun doubleRun .empty hjobs Nat.zero_lt_one (by decide)
  exact hover (h events state hrun)

end Icflow.Static
