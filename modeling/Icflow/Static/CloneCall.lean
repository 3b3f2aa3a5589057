import Icflow.Foundation.Attempts
import Icflow.Static.RateLimit

set_option autoImplicit false

/-!
# One call of `clone_package`

`clonePackage` is a call from the check of the rate limit to the counter that it leaves, as
a function of what `git` answers to each invocation.  What the summary at the end of the
script counts is read from the text of `build_summary.log`.
-/

namespace Icflow.Static

open Icflow.Foundation Icflow.Collect

/-! ## The call -/

/-- How an invocation of `git clone` ends. -/
inductive GitOutcome where
  | success
  /-- it fails and its output has `HTTP 429` -/
  | rateLimited
  | failure
  deriving DecidableEq

/-- A call with what `date` and `git` answer to it. -/
structure Call where
  url : Url
  /-- `mapfile` cuts the list at its newlines -/
  isLine : '\n' ∉ url
  /-- `current_time` -/
  now : Int
  /-- the time at which the timestamp is written anew -/
  later : Int
  /-- what the invocations of `git clone` come to -/
  outcomes : Nat → GitOutcome

/-- The package named in the log and in the directory of the section. -/
def Call.name (config : Config) (call : Call) : PackageName := packageName config.machine call.url

section Functions

variable (config : Config) (call : Call) (s : Store)

/-- `enforce_clone_rate_limit`, with the `CLONE_COUNTER` that it leaves. -/
def enforceCloneRateLimit : Store × Nat :=
  let elapsed := call.now - s.timestamp.getD 0
  let counter := s.counter.getD 0
  if windowLength ≤ elapsed ∨ config.cloneRateLimit ≤ counter then
    ({ s with counter := some 0, timestamp := some call.later }, 0)
  else (s, counter)

/-- What the loop does after an invocation: the line for the log, or another attempt. -/
def afterInvocation (retryCount : Nat) : Option Summary :=
  match call.outcomes retryCount with
  | .success => some (.cloneSuccess (call.name config))
  | .rateLimited =>
      if maxRetries ≤ retryCount + 1 then some (.cloneRateLimited (call.name config)) else none
  | .failure => some (.cloneFailed (call.name config) call.url)

/-- The loop of `clone_package`: the number of invocations, and the line for the log. -/
def cloneLoop : Nat × Option Summary := attempts (afterInvocation config call) 0 maxRetries

/-- The directories after the loop; `git` removes what a failed clone has made. -/
def clonedDirectories (entry : Summary) : Finset PackageName :=
  match entry with
  | .cloneSuccess name => insert name s.directories
  | _ => s.directories

/-- The files after an entry is logged and the URL is recorded. -/
def recorded (url : Url) (counter : Nat) (entry : Summary) : Store :=
  { s with
    directories := clonedDirectories s entry
    buildLog := s.buildLog ++ [entry]
    progress := s.progress ++ echoed url
    counter := some (counter + 1) }

/-- `clone_package` -/
def clonePackage : Store :=
  let checked := enforceCloneRateLimit config call s
  match (cloneLoop config call).2 with
  | some entry => recorded checked.1 call.url checked.2 entry
  | none => { checked.1 with counter := some (checked.2 + 1) }

/-- Calls one after the other. -/
def clonePackages (calls : List Call) : Store :=
  calls.foldl (fun s call => clonePackage config call s) s

end Functions

/-! ## The loop -/

section Loop

variable {config : Config} {call : Call}

theorem afterInvocation_eq_none_iff {retryCount : Nat} :
    afterInvocation config call retryCount = none ↔
      call.outcomes retryCount = .rateLimited ∧ retryCount + 1 < maxRetries := by
  unfold afterInvocation
  cases call.outcomes retryCount with
  | success => simp
  | rateLimited => simp
  | failure => simp

/-- The first three invocations are all rate-limited. -/
def Call.Exhausted (call : Call) : Prop :=
  ∀ retryCount < maxRetries, call.outcomes retryCount = .rateLimited

/-- The loop ends after at most three invocations, with an entry that tells the rate limit
exactly when all three have met it. -/
theorem exists_cloneLoop (config : Config) (call : Call) :
    ∃ n < maxRetries, ∃ entry, (∀ m < n, call.outcomes m = .rateLimited) ∧
      afterInvocation config call n = some entry ∧
      cloneLoop config call = (n + 1, some entry) ∧
      (call.Exhausted ∧ entry = .cloneRateLimited (call.name config) ∨
        ¬ call.Exhausted ∧ (entry = .cloneSuccess (call.name config) ∨
          entry = .cloneFailed (call.name config) call.url)) := by
  have hlast : afterInvocation config call (0 + 2) ≠ none := by
    rw [Ne, afterInvocation_eq_none_iff]
    exact fun h => Nat.lt_irrefl _ h.2
  obtain ⟨n, hn, entry, hbefore, hentry, heq⟩ := attempts_of_last hlast
  have hearlier : ∀ m < n, call.outcomes m = .rateLimited := by
    intro m hm
    have hnone := afterInvocation_eq_none_iff.mp (hbefore m hm)
    rw [Nat.zero_add] at hnone
    exact hnone.1
  rw [Nat.zero_add] at hentry
  refine ⟨n, Nat.lt_succ_of_le hn, entry, hearlier, hentry, heq, ?_⟩
  rw [afterInvocation] at hentry
  cases houtcome : call.outcomes n with
  | success =>
      rw [houtcome] at hentry
      refine Or.inr ⟨?_, Or.inl (Option.some.inj hentry).symm⟩
      intro hall
      rw [hall n (Nat.lt_succ_of_le hn)] at houtcome
      cases houtcome
  | failure =>
      rw [houtcome] at hentry
      refine Or.inr ⟨?_, Or.inr (Option.some.inj hentry).symm⟩
      intro hall
      rw [hall n (Nat.lt_succ_of_le hn)] at houtcome
      cases houtcome
  | rateLimited =>
      rw [houtcome] at hentry
      simp only [Option.ite_none_right_eq_some, Option.some.injEq] at hentry
      refine Or.inl ⟨?_, hentry.2.symm⟩
      intro m hm
      rcases Nat.lt_or_ge m n with hlt | hge
      · exact hearlier m hlt
      · have hmn : m = n := by
          have hthree : maxRetries = 3 := rfl
          omega
        rw [hmn]
        exact houtcome

theorem clonePackage_of_entry {entry : Summary} (h : (cloneLoop config call).2 = some entry)
    (s : Store) :
    clonePackage config call s =
      recorded (enforceCloneRateLimit config call s).1 call.url
        (enforceCloneRateLimit config call s).2 entry := by
  unfold clonePackage
  rw [h]

end Loop

/-! ## The call as steps of a job -/

section Steps

variable {config : Config} {call : Call}

/-- From the loop on, when the invocations so far have met the rate limit. -/
theorem alone_cloning {counter n : Nat} {entry : Summary} (hn : n < maxRetries)
    (hurl : isOption call.url = false) (hentry : afterInvocation config call n = some entry)
    (s : Store) (remaining : Nat) (hremaining : remaining ≤ n) :
    ∃ events, JobPool.Alone (clonePhase config) s
      ⟨call.url, .cloning counter (n - remaining) false⟩ events
      (recorded s call.url counter entry) := by
  have hremoves : false = true → false = true := id
  induction remaining with
  | zero =>
      have hrecorded (s : Store) : JobPool.Alone (clonePhase config) s
          ⟨call.url, .unrecorded counter⟩ [] { s with
            progress := s.progress ++ echoed call.url
            counter := some (counter + 1) } :=
        (CloneStep.record s call.url counter).more (CloneStep.increment _ call.url counter).ends
      rw [Nat.sub_zero]
      rw [afterInvocation] at hentry
      cases houtcome : call.outcomes n with
      | success =>
          rw [houtcome] at hentry
          cases hentry
          exact ⟨_, (CloneStep.succeed s call.url counter n false hurl).more (hrecorded _)⟩
      | failure =>
          rw [houtcome] at hentry
          cases hentry
          exact ⟨_, (CloneStep.fail s call.url counter n false false hremoves).more (hrecorded _)⟩
      | rateLimited =>
          rw [houtcome] at hentry
          simp only [Option.ite_none_right_eq_some, Option.some.injEq] at hentry
          obtain ⟨hlast, rfl⟩ := hentry
          exact ⟨_, (CloneStep.giveUp s call.url counter n false false hremoves hlast).more
            (hrecorded _)⟩
  | succ remaining ih =>
      obtain ⟨events, halone⟩ := ih (Nat.le_of_succ_le hremaining)
      have hnext : n - (remaining + 1) + 1 = n - remaining := by omega
      have hretries : n - (remaining + 1) + 1 < maxRetries := by omega
      rw [← hnext] at halone
      exact ⟨_, (CloneStep.retry s call.url counter _ false false hremoves hretries).more halone⟩

/-- A call is one of the runs of its job. -/
theorem alone_clonePackage (hurl : isOption call.url = false) (s : Store) :
    ∃ events, JobPool.Alone (clonePhase config) s ⟨call.url, .entered⟩ events
      (clonePackage config call s) := by
  obtain ⟨n, hn, entry, _, hentry, heq, _⟩ := exists_cloneLoop config call
  have hloop (counter : Nat) (s : Store) :
      ∃ events, JobPool.Alone (clonePhase config) s ⟨call.url, .cloning counter (n - n) false⟩
        events (recorded s call.url counter entry) :=
    alone_cloning hn hurl hentry s n (Nat.le_refl n)
  rw [clonePackage_of_entry (congrArg Prod.snd heq)]
  by_cases hfull : windowLength ≤ call.now - s.timestamp.getD 0 ∨
      config.cloneRateLimit ≤ s.counter.getD 0
  · have hcheck : enforceCloneRateLimit config call s =
        ({ s with counter := some 0, timestamp := some call.later }, 0) := if_pos hfull
    rw [hcheck]
    obtain ⟨events, halone⟩ := hloop 0 { s with counter := some 0, timestamp := some call.later }
    rw [Nat.sub_self] at halone
    exact ⟨_, (CloneStep.readTimestamp s call.url call.now).more
      ((CloneStep.readCounter s call.url _).more
        ((CloneStep.zero s call.url _ _ hfull).more
          ((CloneStep.reset _ call.url call.later).more
            ((CloneStep.pass _ call.url 0).more halone))))⟩
  · have hcheck : enforceCloneRateLimit config call s = (s, s.counter.getD 0) := if_neg hfull
    rw [hcheck]
    obtain ⟨events, halone⟩ := hloop (s.counter.getD 0) s
    rw [Nat.sub_self] at halone
    obtain ⟨hrecent, hfree⟩ := not_or.mp hfull
    exact ⟨_, (CloneStep.readTimestamp s call.url call.now).more
      ((CloneStep.readCounter s call.url _).more
        ((CloneStep.keep s call.url _ _ (Int.not_le.mp hrecent) (Nat.not_le.mp hfree)).more
          ((CloneStep.pass s call.url _).more halone)))⟩

end Steps

/-! ## Runs -/

section Runs

variable {config : Config} {run : Run} {s s' initial : Store} {events more : List Event}
  {state state' : State}

/-- The entry of a call of `clone_package`. -/
def Summary.isClone : Summary → Bool
  | .cloneSuccess _ | .cloneRateLimited _ | .cloneFailed _ _ => true
  | .buildSuccess _ | .buildFailed _ => false

/-- The job has not logged its entry. -/
def CloneJob.isUnlogged (job : CloneJob) : Bool :=
  match job.phase with
  | .entered | .timed _ | .counted .. | .resetting | .allowed _ | .cloning .. => true
  | .unrecorded _ | .recorded _ => false

/-- The running calls that have not logged their entries. -/
def State.unlogged : State → Nat
  | .cloning _ _ _ pool => pool.running.countP CloneJob.isUnlogged
  | .reading .. | .building .. | .finished _ => 0

theorem abandoned_buildLog (name : PackageName) (removes : Bool) (s : Store) :
    (abandoned name removes s).buildLog = s.buildLog := by
  unfold abandoned
  split
  · rfl
  · rfl

/-- A job logs one entry. -/
theorem CloneStep.countP_isClone {job : CloneJob} {next : Option CloneJob}
    (h : CloneStep config s job more s' next) :
    s'.buildLog.countP Summary.isClone + next.toList.countP CloneJob.isUnlogged =
      s.buildLog.countP Summary.isClone + [job].countP CloneJob.isUnlogged := by
  cases h with
  | succeed url counter retries made _ =>
      rw [List.countP_append]
      rfl
  | giveUp url counter retries made removes _ _ =>
      rw [List.countP_append]
      rfl
  | fail url counter retries made removes _ =>
      rw [List.countP_append]
      rfl
  | retry url counter retries made removes _ _ =>
      rw [abandoned_buildLog]
      rfl
  | _ => rfl

theorem BuildStep.countP_isClone {job : BuildJob} {next : Option BuildJob}
    (h : BuildStep config s job more s' next) :
    s'.buildLog.countP Summary.isClone = s.buildLog.countP Summary.isClone := by
  cases h with
  | succeed url exes _ =>
      rw [List.countP_append]
      rfl
  | fail url =>
      rw [List.countP_append]
      rfl
  | clean url =>
      unfold cleaned
      split
      · rfl
      · split
        · rfl
        · rfl
  | _ => rfl

/-- Every call that is started logs one entry, in whatever order the jobs take their steps. -/
theorem Step.countP_isClone (h : Step config run state more state') :
    state'.store.buildLog.countP Summary.isClone + state'.unlogged =
      state.store.buildLog.countP Summary.isClone + state.unlogged + (clonesStarted more).length := by
  cases h with
  | clone totalCount urls batch _ pool pool' hpool =>
      cases hpool with
      | skip entry rest _ _ _ => rfl
      | accept entry rest _ _ _ => rfl
      | start entry _ _ =>
          have hspawn : [(clonePhase config).spawn entry].countP CloneJob.isUnlogged = 1 := rfl
          have hstarted : (clonesStarted [(clonePhase config).launch entry]).length = 1 := rfl
          simp only [State.store, State.unlogged, List.countP_append]
          omega
      | work earlier job later _ store next hrunning hwork =>
          have hjob := CloneStep.countP_isClone hwork
          have hnone := CloneStep.clonesStarted hwork
          simp only [State.store, State.unlogged, hrunning, hnone, List.countP_append,
            countP_cons_append CloneJob.isUnlogged job later, List.length_nil]
          omega
  | build totalCount urls _ pool pool' hpool =>
      cases hpool with
      | skip entry rest _ _ _ => rfl
      | accept entry rest _ _ _ => rfl
      | start entry _ _ => rfl
      | work earlier job later _ store next _ hwork =>
          have hjob := BuildStep.countP_isClone hwork
          have hnone := BuildStep.clonesStarted hwork
          simp only [State.store, State.unlogged, hjob, hnone, List.length_nil]
  | cloned totalCount urls batch pool hdone =>
      have hnone : pool.running = [] := hdone.running
      simp only [State.store, State.unlogged, hnone]
      rfl
  | _ => rfl

/-- The entries of clones in the log of a run are those it began with and one for each call
that has got so far. -/
theorem Executes.countP_isClone (h : Executes config run initial events state) :
    state.store.buildLog.countP Summary.isClone + state.unlogged =
      initial.buildLog.countP Summary.isClone + (clonesStarted events).length := by
  refine Trace.invariant h
    (fun events state => state.store.buildLog.countP Summary.isClone + state.unlogged =
      initial.buildLog.countP Summary.isClone + (clonesStarted events).length) rfl ?_
  intro events state more state' ih hstep
  have hmore := hstep.countP_isClone
  rw [clonesStarted_append, List.length_append]
  omega

/-- A finished run over a fresh log has one entry for each call of `clone_package`. -/
theorem Executes.countP_isClone_of_finished (h : Executes config run initial events (.finished s))
    (hfresh : initial.buildLog = []) :
    s.buildLog.countP Summary.isClone = (clonesStarted events).length := by
  have hrun := h.countP_isClone
  rw [hfresh] at hrun
  simpa [State.store, State.unlogged] using hrun

end Runs

/-! ## The text of the log -/

section Log

/-- What the summary takes for a success. -/
def successMark : List Char := '✅' :: " CLONE SUCCESS:".toList

/-- What the summary takes for a failure. -/
def failureMark : List Char := '❌' :: " CLONE FAILED:".toList

/-- The text of an entry; `fullPath` is what `realpath` prints for a directory. -/
def Summary.text (fullPath : PackageName → List Char) : Summary → List Char
  | .cloneSuccess name => successMark ++ ' ' :: name
  | .cloneRateLimited name =>
      '❌' :: " CLONE FAILED (Rate limit): ".toList ++ name ++ " after ".toList ++
        Nat.toDigits 10 maxRetries ++ " retries".toList
  | .cloneFailed name url => failureMark ++ ' ' :: name ++ " (".toList ++ url ++ ")".toList
  | .buildSuccess name => '✅' :: " BUILD SUCCESS: ".toList ++ fullPath name
  | .buildFailed name => '❌' :: " BUILD FAILED: ".toList ++ fullPath name

/-- The text of `build_summary.log`. -/
def logText (fullPath : PackageName → List Char) (s : Store) : List Char :=
  unlines (s.buildLog.map (Summary.text fullPath))

/-- `clone_success` and `clone_failed` of the summary, added up. -/
def totalClone (fullPath : PackageName → List Char) (s : Store) : Nat :=
  countPrefixed successMark (logText fullPath s) + countPrefixed failureMark (logText fullPath s)

/-- A line that is counted once, as a success or as a failure. -/
def CountedOnce (line : List Char) : Prop :=
  (successMark.isPrefixOf line = true ∧ failureMark.isPrefixOf line = false) ∨
    (successMark.isPrefixOf line = false ∧ failureMark.isPrefixOf line = true)

variable {fullPath : PackageName → List Char}

theorem countedOnce_cloneSuccess (name : PackageName) :
    CountedOnce ((Summary.cloneSuccess name).text fullPath) := by
  refine Or.inl ⟨?_, ?_⟩
  · rw [List.isPrefixOf_iff_prefix]
    exact List.prefix_append successMark _
  · simp [Summary.text, successMark, failureMark, List.isPrefixOf]

theorem countedOnce_cloneFailed (name : PackageName) (url : Url) :
    CountedOnce ((Summary.cloneFailed name url).text fullPath) := by
  refine Or.inr ⟨?_, ?_⟩
  · simp [Summary.text, successMark, failureMark, List.isPrefixOf]
  · rw [List.isPrefixOf_iff_prefix]
    simp only [Summary.text, List.append_assoc]
    exact List.prefix_append failureMark _

/-- The line of the rate limit does not have the mark of a failure. -/
theorem not_countedOnce_cloneRateLimited (name : PackageName) :
    ¬ CountedOnce ((Summary.cloneRateLimited name).text fullPath) := by
  simp [CountedOnce, Summary.text, successMark, failureMark]

/-- The entry of a call takes one line when its name does. -/
theorem newline_notMem_text_iff {name : PackageName} {url : Url} (hurl : '\n' ∉ url)
    {entry : Summary} (hentry : entry = .cloneSuccess name ∨ entry = .cloneFailed name url) :
    '\n' ∉ entry.text fullPath ↔ '\n' ∉ name := by
  rcases hentry with rfl | rfl
  · simp [Summary.text, successMark]
  · simp [Summary.text, failureMark, hurl]

end Log

/-! ## Every attempt is counted -/

section Counted

variable (config : Config) (fullPath : PackageName → List Char)

/-- What one call promises, whatever the files are before it. -/
structure CountsOnce (call : Call) (s : Store) : Prop where
  invocations : (cloneLoop config call).1 ≤ 3
  progress : (clonePackage config call s).progress = s.progress ++ [call.url]
  counter : (clonePackage config call s).counter =
    some ((enforceCloneRateLimit config call s).2 + 1)
  log : ∃ line, '\n' ∉ line ∧ CountedOnce line ∧
    logText fullPath (clonePackage config call s) = logText fullPath s ++ (line ++ ['\n'])

/-- Every call counts once, and the two totals of a fresh log add up to the calls. -/
structure EveryCallCounted (calls : List Call) : Prop where
  each : ∀ call ∈ calls, ∀ s, CountsOnce config fullPath call s
  totals : ∀ s, s.buildLog = [] → totalClone fullPath (clonePackages config s calls) = calls.length

/-- The rate limit does not end the call, `echo` prints its URL and its name is one line. -/
structure Call.Countable (call : Call) : Prop where
  notExhausted : ¬ call.Exhausted
  notOption : isEchoOption call.url = false
  name_isLine : '\n' ∉ call.name config

variable {config fullPath} {call : Call}

theorem echoed_eq_singleton_iff {url : Url} : echoed url = [url] ↔ isEchoOption url = false := by
  unfold echoed
  cases hoption : isEchoOption url with
  | false => exact iff_of_true rfl rfl
  | true =>
      have hne : url ≠ [] := by
        rintro rfl
        cases hoption
      rw [if_pos rfl]
      split
      · simp
      · simp [hne.symm]

theorem enforceCloneRateLimit_keeps (config : Config) (call : Call) (s : Store) :
    (enforceCloneRateLimit config call s).1.progress = s.progress ∧
      (enforceCloneRateLimit config call s).1.buildLog = s.buildLog := by
  unfold enforceCloneRateLimit
  dsimp only
  split
  · exact ⟨rfl, rfl⟩
  · exact ⟨rfl, rfl⟩

/-- A call logs its entry and records its URL. -/
theorem exists_clonePackage (config : Config) (call : Call) :
    ∃ entry, (cloneLoop config call).1 ≤ 3 ∧
      (call.Exhausted ∧ entry = .cloneRateLimited (call.name config) ∨
        ¬ call.Exhausted ∧ (entry = .cloneSuccess (call.name config) ∨
          entry = .cloneFailed (call.name config) call.url)) ∧
      ∀ s, (clonePackage config call s).progress = s.progress ++ echoed call.url ∧
        (clonePackage config call s).counter =
          some ((enforceCloneRateLimit config call s).2 + 1) ∧
        (clonePackage config call s).buildLog = s.buildLog ++ [entry] := by
  obtain ⟨n, hn, entry, _, _, heq, hkind⟩ := exists_cloneLoop config call
  have hentry : (cloneLoop config call).2 = some entry := by rw [heq]
  refine ⟨entry, ?_, hkind, ?_⟩
  · rw [heq]
    exact hn
  · intro s
    obtain ⟨hprogress, hlog⟩ := enforceCloneRateLimit_keeps config call s
    rw [clonePackage_of_entry hentry]
    simp only [recorded, hprogress, hlog, true_and]

theorem logText_of_append {s s' : Store} {entry : Summary}
    (h : s'.buildLog = s.buildLog ++ [entry]) :
    logText fullPath s' = logText fullPath s ++ (entry.text fullPath ++ ['\n']) := by
  unfold logText unlines
  rw [h, List.map_append, List.flatMap_append, List.map_singleton, List.flatMap_singleton]

/-- The log grows by a counted line when its entry is one. -/
theorem exists_line_iff {s s' : Store} {entry : Summary}
    (h : s'.buildLog = s.buildLog ++ [entry]) :
    (∃ line, '\n' ∉ line ∧ CountedOnce line ∧
        logText fullPath s' = logText fullPath s ++ (line ++ ['\n'])) ↔
      '\n' ∉ entry.text fullPath ∧ CountedOnce (entry.text fullPath) := by
  rw [logText_of_append h]
  constructor
  · rintro ⟨line, hline, hcounted, heq⟩
    have htext : entry.text fullPath = line :=
      List.append_cancel_right (List.append_cancel_left heq)
    rw [htext]
    exact ⟨hline, hcounted⟩
  · rintro ⟨hline, hcounted⟩
    exact ⟨_, hline, hcounted, rfl⟩

theorem countsOnce_iff (call : Call) (s : Store) :
    CountsOnce config fullPath call s ↔ call.Countable config := by
  obtain ⟨entry, hinvocations, hkind, hcall⟩ := exists_clonePackage config call
  obtain ⟨hprogress, hcounter, hlog⟩ := hcall s
  constructor
  · intro h
    obtain ⟨hline, hcounted⟩ := (exists_line_iff hlog).mp h.log
    have hoption : isEchoOption call.url = false := by
      have hrecorded := h.progress
      rw [hprogress] at hrecorded
      exact echoed_eq_singleton_iff.mp (List.append_cancel_left hrecorded)
    rcases hkind with ⟨_, hentry⟩ | ⟨hfree, hentry⟩
    · rw [hentry] at hcounted
      exact absurd hcounted (not_countedOnce_cloneRateLimited _)
    · exact ⟨hfree, hoption, (newline_notMem_text_iff call.isLine hentry).mp hline⟩
  · intro h
    refine ⟨hinvocations, ?_, hcounter, (exists_line_iff hlog).mpr ?_⟩
    · rw [hprogress, echoed_eq_singleton_iff.mpr h.notOption]
    · rcases hkind with ⟨hexhausted, _⟩ | ⟨_, hentry⟩
      · exact absurd hexhausted h.notExhausted
      · refine ⟨(newline_notMem_text_iff call.isLine hentry).mpr h.name_isLine, ?_⟩
        rcases hentry with rfl | rfl
        · exact countedOnce_cloneSuccess _
        · exact countedOnce_cloneFailed _ _

/-- The entries of countable calls, one for each of them. -/
theorem exists_clonePackages {calls : List Call} (h : ∀ call ∈ calls, call.Countable config)
    (s : Store) :
    ∃ entries, (clonePackages config s calls).buildLog = s.buildLog ++ entries ∧
      entries.length = calls.length ∧
      ∀ entry ∈ entries, '\n' ∉ entry.text fullPath ∧ CountedOnce (entry.text fullPath) := by
  induction calls generalizing s with
  | nil => exact ⟨[], (List.append_nil _).symm, rfl, List.forall_mem_nil _⟩
  | cons call calls ih =>
      obtain ⟨hcall, hcalls⟩ := List.forall_mem_cons.mp h
      obtain ⟨entry, _, _, heffect⟩ := exists_clonePackage config call
      obtain ⟨_, _, hlog⟩ := heffect s
      have hcounted : CountsOnce config fullPath call s := (countsOnce_iff call s).mpr hcall
      have hline := (exists_line_iff hlog).mp hcounted.log
      obtain ⟨entries, hentries, hlength, hlines⟩ := ih hcalls (clonePackage config call s)
      refine ⟨entry :: entries, ?_, ?_, List.forall_mem_cons.mpr ⟨hline, hlines⟩⟩
      · have hfold : clonePackages config s (call :: calls) =
            clonePackages config (clonePackage config call s) calls := rfl
        rw [hfold, hentries, hlog, List.append_assoc, List.singleton_append]
      · rw [List.length_cons, List.length_cons, hlength]

/-- Of lines that are counted once, each is counted in one of the two totals. -/
theorem countP_add_countP {texts : List (List Char)} (h : ∀ line ∈ texts, CountedOnce line) :
    texts.countP (fun line => successMark.isPrefixOf line) +
      texts.countP (fun line => failureMark.isPrefixOf line) = texts.length := by
  induction texts with
  | nil => rfl
  | cons line texts ih =>
      obtain ⟨hline, hrest⟩ := List.forall_mem_cons.mp h
      have htail := ih hrest
      rw [List.countP_cons, List.countP_cons, List.length_cons]
      rcases hline with ⟨hsuccess, hfailure⟩ | ⟨hsuccess, hfailure⟩
      · rw [hsuccess, hfailure, if_pos rfl, if_neg Bool.false_ne_true]
        omega
      · rw [hsuccess, hfailure, if_pos rfl, if_neg Bool.false_ne_true]
        omega

theorem totalClone_of_countedOnce {s : Store}
    (h : ∀ entry ∈ s.buildLog, '\n' ∉ entry.text fullPath ∧ CountedOnce (entry.text fullPath)) :
    totalClone fullPath s = s.buildLog.length := by
  have hlines : ∀ line ∈ s.buildLog.map (Summary.text fullPath), '\n' ∉ line ∧ CountedOnce line :=
    List.forall_mem_map.mpr h
  have hnewline : ∀ line ∈ s.buildLog.map (Summary.text fullPath), '\n' ∉ line :=
    fun line hline => (hlines line hline).1
  have hsuccess : successMark ≠ [] := List.cons_ne_nil _ _
  have hfailure : failureMark ≠ [] := List.cons_ne_nil _ _
  unfold totalClone logText
  rw [countPrefixed_unlines hsuccess hnewline, countPrefixed_unlines hfailure hnewline,
    countP_add_countP fun line hline => (hlines line hline).2, List.length_map]

/-- Every call counts once when the rate limit ends none of them, and only then. -/
theorem everyCallCounted_iff (config : Config) (fullPath : PackageName → List Char)
    (calls : List Call) :
    EveryCallCounted config fullPath calls ↔ ∀ call ∈ calls, call.Countable config := by
  constructor
  · intro h call hcall
    exact (countsOnce_iff call Store.empty).mp (h.each call hcall Store.empty)
  · intro h
    refine ⟨fun call hcall s => (countsOnce_iff call s).mpr (h call hcall), ?_⟩
    intro s hfresh
    obtain ⟨entries, hentries, hlength, hlines⟩ := exists_clonePackages h s
    rw [hfresh, List.nil_append] at hentries
    rw [totalClone_of_countedOnce (hentries.symm ▸ hlines), hentries, hlength]

/-- A call that `git` answers with the rate limit every time. -/
def limitedCall : Call where
  url := sampleUrl
  isLine := by decide
  now := 0
  later := 0
  outcomes := fun _ => .rateLimited

/-- Its line is neither a success nor a failure for the summary. -/
theorem not_everyCallCounted_limitedCall : ¬ EveryCallCounted sampleConfig id [limitedCall] := by
  intro h
  have hcounted := h.each limitedCall (List.mem_singleton_self _) Store.empty
  exact ((countsOnce_iff limitedCall Store.empty).mp hcounted).notExhausted fun _ _ => rfl

end Counted

end Icflow.Static
