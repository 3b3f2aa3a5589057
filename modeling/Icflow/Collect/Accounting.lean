import Icflow.Collect.MainLoop

set_option autoImplicit false

/-!
# What a run of the main loop accounts for

Every line that `read` delivers settles its URL, unless the URL looks like an option to
`grep` or `echo`; a line that is not delivered settles nothing.  The first URL that is
appended to `processed_urls.txt` completes a line that the file was left with.  So the run
accounts for the list exactly when every listed URL was processed before or is delivered,
and is not the one that is written behind an open line.
-/

namespace Icflow.Collect

open Icflow.Foundation

/-- Every listed URL is recorded, and the failure count is the number of URLs appended to
`failed_urls.txt`. -/
structure Accounted (machine : Machine) (text : List Char) (final : Collection) : Prop where
  recorded : ∀ url ∈ listed machine text, url ∈ final.processed.lines ∨ url ∈ final.failed
  counted : final.failures = final.failed.countP (· ≠ [])

/-- The URL is no option, or one that `grep` finds nothing with and `echo` prints. -/
def Passes (commands : Commands) (url : Url) : Prop :=
  isOption url = true → commands.grepFinds = false ∧ isEchoOption url = false

/-- The visited line holds the URL, and it is not taken for an option. -/
def Settles (machine : Machine) (oracle : Nat → Commands) (visit : LoopState × List Char)
    (url : Url) : Prop :=
  urlOf machine visit.2 = some url ∧ Passes (oracle visit.1.iterations) url

/-- The visited line holds a URL that `grep` does not find. -/
def Misses (machine : Machine) (oracle : Nat → Commands) (visit : LoopState × List Char)
    (url : Url) : Prop :=
  urlOf machine visit.2 = some url ∧
    (grepProcessed (oracle visit.1.iterations) url visit.1.collection).1 = false

/-- `process_package` succeeds with the URL of the visited line. -/
def succeedsWith (machine : Machine) (oracle : Nat → Commands) (visit : LoopState × List Char)
    (url : Url) : Bool :=
  (processPackage machine (oracle visit.1.iterations) url visit.1.collection).succeeds

/-- The visited line completes the open line of `processed_urls.txt` to the URL. -/
def Completes (machine : Machine) (oracle : Nat → Commands) (visit : LoopState × List Char)
    (url : Url) : Prop :=
  visit.1.collection.processed.rest ≠ [] ∧ ∃ other, Misses machine oracle visit other ∧
    succeedsWith machine oracle visit other = true ∧
      ∃ line ∈ echoed other, url = visit.1.collection.processed.rest ++ line

/-- The visited line enters the URL in one of the bookkeeping files: it settles the URL, and
does not write it behind an open line, or it completes that line. -/
def Enters (machine : Machine) (oracle : Nat → Commands) (visit : LoopState × List Char)
    (url : Url) : Prop :=
  (Settles machine oracle visit url ∧ (visit.1.collection.processed.rest = [] ∨
      Misses machine oracle visit url ∧ succeedsWith machine oracle visit url = false)) ∨
    Completes machine oracle visit url

/-- The visited line appends to `processed_urls.txt`. -/
def Appends (machine : Machine) (oracle : Nat → Commands) (visit : LoopState × List Char) : Prop :=
  ∃ url, Misses machine oracle visit url ∧ succeedsWith machine oracle visit url = true ∧
    echoed url ≠ []

/-- The visited line fails and is an option of `echo`, which prints no URL for it. -/
def Misprints (machine : Machine) (oracle : Nat → Commands) (visit : LoopState × List Char) :
    Prop :=
  ∃ url, urlOf machine visit.2 = some url ∧ isEchoOption url = true ∧
    (oracle visit.1.iterations).grepFinds = false ∧
      (processPackage machine (oracle visit.1.iterations) url visit.1.collection).succeeds = false

section Bookkeeping

variable {machine : Machine} {commands : Commands}

/-! ## `echo` -/

theorem isOption_of_isEchoOption {url : Url} (h : isEchoOption url = true) :
    isOption url = true := by
  unfold isEchoOption at h
  split at h
  · rfl
  · cases h

theorem mem_echoed {url other : Url} (hurl : url ≠ []) :
    url ∈ echoed other ↔ url = other ∧ isEchoOption other = false := by
  unfold echoed
  split
  · rename_i hoption
    rw [hoption]
    split <;> simp [hurl]
  · rename_i hoption
    rw [Bool.not_eq_true] at hoption
    simp [hoption]

theorem countP_echoed {url : Url} (hurl : url ≠ []) :
    (echoed url).countP (· ≠ []) = if isEchoOption url then 0 else 1 := by
  unfold echoed
  split
  · split <;> simp
  · simp [hurl]

/-! ## One iteration -/

/-- What one iteration can do to the bookkeeping. -/
inductive Iteration (machine : Machine) (commands : Commands) (url : Url) (s : Collection) :
    Collection → Prop where
  | found (hgrep : (grepProcessed commands url s).1 = true) : Iteration machine commands url s s
  | done (after : Collection) (hgrep : (grepProcessed commands url s).1 = false)
      (hsucceeds : (processPackage machine commands url s).succeeds = true)
      (hprocessed : after.processed = s.processed.appendAll (echoed url))
      (hfailed : after.failed = s.failed)
      (hfailures : after.failures = s.failures) : Iteration machine commands url s after
  | failed (after : Collection) (hgrep : (grepProcessed commands url s).1 = false)
      (hfails : (processPackage machine commands url s).succeeds = false)
      (hprocessed : after.processed = s.processed) (hfailed : after.failed = s.failed ++ echoed url)
      (hfailures : after.failures = s.failures + 1) : Iteration machine commands url s after

theorem iteration_iterate (machine : Machine) (commands : Commands) (url : Url) (s : Collection) :
    Iteration machine commands url s (iterate machine commands url s).1 := by
  obtain ⟨hfailed, hfailures, hprocessed⟩ :=
    processPackage_bookkeeping machine commands url s
  unfold iterate
  simp only
  split
  · rename_i hgrep
    exact .found hgrep
  · rename_i hgrep
    rw [Bool.not_eq_true] at hgrep
    split
    · rename_i hsucceeds
      rw [if_pos hsucceeds] at hprocessed
      exact .done _ hgrep hsucceeds hprocessed hfailed hfailures
    · rename_i hfails
      rw [if_neg hfails] at hprocessed
      rw [Bool.not_eq_true] at hfails
      refine .failed _ hgrep hfails hprocessed ?_ ?_
      · rw [hfailed]
      · rw [hfailures]

/-- What `grep` says of a URL that is no option is whether it is recorded. -/
theorem grepProcessed_of_not_option {url : Url} (h : isOption url = false) (s : Collection) :
    (grepProcessed commands url s).1 = true ↔ url ∈ s.processed.lines := by
  rw [grepProcessed, h]
  simp

theorem grepProcessed_of_option {url : Url} (h : isOption url = true) (s : Collection) :
    (grepProcessed commands url s).1 = commands.grepFinds := by
  rw [grepProcessed, if_pos h]

/-- A missed URL passes exactly when `echo` prints it. -/
theorem passes_of_missed {url : Url} {s : Collection}
    (hgrep : (grepProcessed commands url s).1 = false) :
    Passes commands url ↔ isEchoOption url = false := by
  unfold Passes
  cases hoption : isOption url with
  | true =>
      rw [grepProcessed_of_option hoption] at hgrep
      simp [hgrep]
  | false =>
      have hecho : isEchoOption url = false := by
        rw [← Bool.not_eq_true]
        intro h
        rw [isOption_of_isEchoOption h] at hoption
        cases hoption
      simp [hecho]

/-- The URL is in one of the two bookkeeping files, on a line that is ended. -/
def Collection.Records (s : Collection) (url : Url) : Prop :=
  url ∈ s.processed.ended ∨ url ∈ s.failed

theorem echoed_cases (url : Url) : echoed url = [] ∨ ∃ line, echoed url = [line] := by
  unfold echoed
  split
  · split
    · exact Or.inl rfl
    · exact Or.inr ⟨[], rfl⟩
  · exact Or.inr ⟨url, rfl⟩

theorem mem_ended_appendAll_echoed {file : LineFile} {url other : Url} :
    url ∈ (file.appendAll (echoed other)).ended ↔
      url ∈ file.ended ∨ ∃ line ∈ echoed other, url = file.rest ++ line := by
  rcases echoed_cases other with hnone | ⟨line, hline⟩
  · rw [hnone]
    simp [LineFile.appendAll]
  · rw [hline, LineFile.appendAll_cons]
    simp

/-- The URLs that an iteration adds to the bookkeeping files. -/
theorem records_iterate {url : Url} (hurl : url ≠ []) (commands : Commands) (other : Url)
    (s : Collection) :
    (iterate machine commands other s).1.Records url ↔ s.Records url ∨
      ((other = url ∧ Passes commands url) ∧ (s.processed.rest = [] ∨
        (other = url ∧ (grepProcessed commands url s).1 = false) ∧
          (processPackage machine commands url s).succeeds = false)) ∨
      (s.processed.rest ≠ [] ∧ (grepProcessed commands other s).1 = false ∧
        (processPackage machine commands other s).succeeds = true ∧
          ∃ line ∈ echoed other, url = s.processed.rest ++ line) := by
  have hmove := iteration_iterate machine commands other s
  unfold Collection.Records
  generalize (iterate machine commands other s).1 = after at hmove
  cases hmove with
  | found hgrep =>
      have hkept : other = url → Passes commands url → s.processed.rest = [] →
          url ∈ s.processed.ended := by
        rintro rfl hpasses hrest
        cases hoption : isOption other with
        | true =>
            rw [grepProcessed_of_option hoption, (hpasses hoption).1] at hgrep
            cases hgrep
        | false =>
            rw [grepProcessed_of_not_option hoption, LineFile.lines_of_ended hrest] at hgrep
            exact hgrep
      constructor
      · exact Or.inl
      · rintro (hold | ⟨⟨heq, hpasses⟩, hrest | ⟨⟨_, hmissed⟩, _⟩⟩ | ⟨_, hmissed, _⟩)
        · exact hold
        · exact Or.inl (hkept heq hpasses hrest)
        · rw [← heq, hgrep] at hmissed
          cases hmissed
        · rw [hgrep] at hmissed
          cases hmissed
  | done after hgrep hsucceeds hprocessed hfailed _ =>
      have hnone : ¬ (other = url ∧ (processPackage machine commands url s).succeeds = false) := by
        rintro ⟨rfl, hfails⟩
        rw [hsucceeds] at hfails
        cases hfails
      have hpasses : other = url → (Passes commands url ↔ isEchoOption url = false) := by
        rintro rfl
        exact passes_of_missed hgrep
      rw [hprocessed, hfailed, mem_ended_appendAll_echoed, or_right_comm]
      apply or_congr_right
      by_cases hrest : s.processed.rest = []
      · rw [or_iff_left fun h => h.1 hrest, and_iff_left (Or.inl hrest), hrest]
        simp only [List.nil_append, exists_eq_right']
        rw [mem_echoed hurl, eq_comm]
        apply and_congr_right
        rintro rfl
        exact (hpasses rfl).symm
      · have hlost : ¬ (s.processed.rest = [] ∨
            (other = url ∧ (grepProcessed commands url s).1 = false) ∧
              (processPackage machine commands url s).succeeds = false) := by
          rintro (hnil | ⟨⟨heq, _⟩, hfails⟩)
          · exact hrest hnil
          · exact hnone ⟨heq, hfails⟩
        rw [or_iff_right fun h => hlost h.2, and_iff_right hrest, and_iff_right hgrep,
          and_iff_right hsucceeds]
  | failed after hgrep hfails hprocessed hfailed _ =>
      have hnone : (processPackage machine commands other s).succeeds ≠ true := by
        rw [hfails]
        exact Bool.false_ne_true
      have hecho : url ∈ echoed other ↔ (other = url ∧ Passes commands url) ∧
          (s.processed.rest = [] ∨ (other = url ∧ (grepProcessed commands url s).1 = false) ∧
            (processPackage machine commands url s).succeeds = false) := by
        rw [mem_echoed hurl]
        constructor
        · rintro ⟨rfl, hprinted⟩
          exact ⟨⟨rfl, (passes_of_missed hgrep).mpr hprinted⟩, Or.inr ⟨⟨rfl, hgrep⟩, hfails⟩⟩
        · rintro ⟨⟨rfl, hpasses⟩, _⟩
          exact ⟨rfl, (passes_of_missed hgrep).mp hpasses⟩
      rw [hprocessed, hfailed, List.mem_append, ← or_assoc]
      apply or_congr_right
      rw [or_iff_left fun h => hnone h.2.2.1]
      exact hecho

/-- What an iteration leaves of the open line of `processed_urls.txt`. -/
theorem rest_iterate (commands : Commands) (url : Url) (s : Collection) :
    (iterate machine commands url s).1.processed.rest =
      if (grepProcessed commands url s).1 = false ∧
          (processPackage machine commands url s).succeeds = true ∧ echoed url ≠ [] then []
      else s.processed.rest := by
  have hmove := iteration_iterate machine commands url s
  generalize (iterate machine commands url s).1 = after at hmove
  cases hmove with
  | found hgrep => simp [hgrep]
  | done after hgrep hsucceeds hprocessed _ _ =>
      rw [hprocessed, LineFile.rest_appendAll]
      by_cases hecho : echoed url = []
      · simp [hecho]
      · simp [hgrep, hsucceeds, hecho]
  | failed after _ hfails hprocessed _ _ => simp [hfails, hprocessed]

/-- A failure is counted, and the lines that are no URL are those of `echo` options. -/
theorem counted_iterate {url : Url} (hurl : url ≠ []) (commands : Commands) (s : Collection) :
    ∃ surplus : Nat,
      (iterate machine commands url s).1.failures + s.failed.countP (· ≠ []) =
        s.failures + (iterate machine commands url s).1.failed.countP (· ≠ []) + surplus ∧
      (surplus = 0 ↔ ¬ (isEchoOption url = true ∧ commands.grepFinds = false ∧
        (processPackage machine commands url s).succeeds = false)) := by
  have hmove := iteration_iterate machine commands url s
  generalize (iterate machine commands url s).1 = after at hmove
  cases hmove with
  | found hgrep =>
      refine ⟨0, rfl, iff_of_true rfl ?_⟩
      rintro ⟨hecho, hmissed, _⟩
      rw [grepProcessed_of_option (isOption_of_isEchoOption hecho), hmissed] at hgrep
      cases hgrep
  | done after _ hsucceeds _ hfailed hfailures =>
      refine ⟨0, ?_, iff_of_true rfl ?_⟩
      · rw [hfailed, hfailures, Nat.add_zero]
      · rintro ⟨_, _, hfails⟩
        rw [hsucceeds] at hfails
        cases hfails
  | failed after hgrep hfails _ hfailed hfailures =>
      rw [hfailed, hfailures, List.countP_append, countP_echoed hurl]
      cases hecho : isEchoOption url with
      | false => exact ⟨0, by simp; omega, by simp⟩
      | true =>
          rw [grepProcessed_of_option (isOption_of_isEchoOption hecho)] at hgrep
          exact ⟨1, by simp; omega, by simp [hgrep, hfails]⟩

/-! ## The loop -/

theorem urlOf_ne_nil {line : List Char} {url : Url} (h : urlOf machine line = some url) :
    url ≠ [] := by
  unfold urlOf at h
  simp only at h
  split at h
  · cases h
  · rename_i hline
    rw [← Option.some.inj h]
    exact fun hnil => hline (Or.inl hnil)

theorem records_loopBody (machine : Machine) (oracle : Nat → Commands) {url : Url}
    (hurl : url ≠ []) (s : LoopState) (line : List Char) :
    (loopBody machine oracle s line).1.collection.Records url ↔
      s.collection.Records url ∨ Enters machine oracle (s, line) url := by
  unfold loopBody Enters Completes Settles Misses succeedsWith
  split
  · rename_i hline
    simp [hline]
  · rename_i other hline
    rw [records_iterate hurl]
    simp only [hline, Option.some.injEq]
    have hline' : ∀ P : Url → Prop, (∃ found, other = found ∧ P found) ↔ P other := fun P =>
      exists_eq_left'
    simp only [and_assoc, hline']

/-- The run records what was recorded before, and the URLs of the lines that enter one. -/
theorem records_run (machine : Machine) (oracle : Nat → Commands) {url : Url}
    (hurl : url ≠ []) (s : LoopState) (text : List Char) :
    (ReadLoop.run (loopBody machine oracle) s text).collection.Records url ↔
      s.collection.Records url ∨
        ∃ visit ∈ ReadLoop.visits (loopBody machine oracle) s text,
          Enters machine oracle visit url := by
  apply ReadLoop.run_induction (loopBody machine oracle) fun s visits s' =>
    s'.collection.Records url ↔
      s.collection.Records url ∨ ∃ visit ∈ visits, Enters machine oracle visit url
  · intro s
    simp
  · intro s line rest s' ih
    rw [ih, records_loopBody machine oracle hurl, or_assoc]
    simp

theorem rest_loopBody (machine : Machine) (oracle : Nat → Commands) (s : LoopState)
    (line : List Char) :
    (Appends machine oracle (s, line) →
        (loopBody machine oracle s line).1.collection.processed.rest = []) ∧
      (¬ Appends machine oracle (s, line) →
        (loopBody machine oracle s line).1.collection.processed.rest =
          s.collection.processed.rest) := by
  unfold loopBody Appends Misses succeedsWith
  split
  · rename_i hline
    simp [hline]
  · rename_i url hline
    simp only [hline, Option.some.injEq, and_assoc, exists_eq_left']
    rw [rest_iterate]
    exact ⟨fun happends => if_pos happends, fun hkept => if_neg hkept⟩

/-- The open line is as it was exactly when nothing is appended. -/
theorem rest_run (machine : Machine) (oracle : Nat → Commands) {url : Url} (hurl : url ≠ [])
    (s : LoopState) (text : List Char) :
    url = (ReadLoop.run (loopBody machine oracle) s text).collection.processed.rest ↔
      url = s.collection.processed.rest ∧
        ∀ visit ∈ ReadLoop.visits (loopBody machine oracle) s text,
          ¬ Appends machine oracle visit := by
  apply ReadLoop.run_induction (loopBody machine oracle) fun s visits s' =>
    url = s'.collection.processed.rest ↔
      url = s.collection.processed.rest ∧ ∀ visit ∈ visits, ¬ Appends machine oracle visit
  · intro s
    simp
  · intro s line rest s' ih
    obtain ⟨hclosed, hkept⟩ := rest_loopBody machine oracle s line
    rw [ih, List.forall_mem_cons]
    by_cases happends : Appends machine oracle (s, line)
    · rw [hclosed happends]
      exact iff_of_false (fun h => hurl h.1) (fun h => h.2.1 happends)
    · rw [hkept happends]
      tauto

theorem counted_loopBody (machine : Machine) (oracle : Nat → Commands) (s : LoopState) (line : List Char) :
    ∃ surplus : Nat,
      (loopBody machine oracle s line).1.collection.failures +
          s.collection.failed.countP (· ≠ []) =
        s.collection.failures +
          (loopBody machine oracle s line).1.collection.failed.countP (· ≠ []) + surplus ∧
      (surplus = 0 ↔ ¬ Misprints machine oracle (s, line)) := by
  unfold loopBody Misprints
  split
  · rename_i hline
    refine ⟨0, rfl, iff_of_true rfl ?_⟩
    rintro ⟨url, hurl, _⟩
    rw [hline] at hurl
    cases hurl
  · rename_i url hline
    obtain ⟨surplus, hcount, hzero⟩ :=
      counted_iterate (urlOf_ne_nil hline) (oracle s.iterations) s.collection
    refine ⟨surplus, hcount, hzero.trans ?_⟩
    simp [hline]

/-- The failure count exceeds the number of URLs appended by the misprints. -/
theorem counted_run (machine : Machine) (oracle : Nat → Commands) (s : LoopState) (text : List Char) :
    ∃ surplus : Nat,
      (ReadLoop.run (loopBody machine oracle) s text).collection.failures +
          s.collection.failed.countP (· ≠ []) =
        s.collection.failures +
          (ReadLoop.run (loopBody machine oracle) s text).collection.failed.countP (· ≠ []) +
            surplus ∧
      (surplus = 0 ↔ ∀ visit ∈ ReadLoop.visits (loopBody machine oracle) s text,
        ¬ Misprints machine oracle visit) := by
  apply ReadLoop.run_induction (loopBody machine oracle) fun s visits s' =>
    ∃ surplus : Nat,
      s'.collection.failures + s.collection.failed.countP (· ≠ []) =
        s.collection.failures + s'.collection.failed.countP (· ≠ []) + surplus ∧
      (surplus = 0 ↔ ∀ visit ∈ visits, ¬ Misprints machine oracle visit)
  · intro s
    exact ⟨0, rfl, by simp⟩
  · rintro s line rest s' ⟨later, hlater, hzero⟩
    obtain ⟨now, hnow, hnowZero⟩ := counted_loopBody machine oracle s line
    refine ⟨now + later, by omega, ?_⟩
    rw [Nat.add_eq_zero_iff, hnowZero, hzero]
    simp

end Bookkeeping

/-- A URL that was there before, or that a delivered line enters. -/
def Covered (machine : Machine) (oracle : Nat → Commands) (s : Collection) (text : List Char)
    (url : Url) : Prop :=
  url ∈ s.processed.ended ∨
    (url = s.processed.rest ∧
      ∀ visit ∈ delivered machine oracle s text, ¬ Appends machine oracle visit) ∨
    ∃ visit ∈ delivered machine oracle s text, Enters machine oracle visit url

/-- A run accounts for its list exactly when every listed URL was processed before, on a line
that nothing is written behind, or is delivered and neither taken for an option nor written
behind an open line, and no failing line is an option of `echo`. -/
theorem accounted_iff (machine : Machine) (oracle : Nat → Commands) (s : Collection)
    (text : List Char) :
    Accounted machine text (mainLoop machine oracle s text) ↔
      (∀ url ∈ listed machine text, Covered machine oracle s text url) ∧
        ∀ visit ∈ delivered machine oracle s text, ¬ Misprints machine oracle visit := by
  have hlisted : ∀ url ∈ listed machine text,
      (url ∈ (mainLoop machine oracle s text).processed.lines ∨
        url ∈ (mainLoop machine oracle s text).failed) ↔ Covered machine oracle s text url := by
    intro url hurl
    obtain ⟨line, _, hline⟩ := List.mem_filterMap.mp hurl
    have hne := urlOf_ne_nil hline
    have hrun := records_run machine oracle hne { collection := s.resume, iterations := 0 } text
    have hrest := rest_run machine oracle hne { collection := s.resume, iterations := 0 } text
    have hstart : s.resume.Records url ↔ url ∈ s.processed.ended := by
      simp [Collection.Records, Collection.resume]
    rw [hstart] at hrun
    rw [LineFile.mem_lines, and_iff_right hne]
    unfold Collection.Records at hrun
    unfold Covered mainLoop delivered
    rw [or_right_comm, hrun, hrest, or_assoc, or_comm (b := url = s.resume.processed.rest ∧ _)]
    rfl
  obtain ⟨surplus, hcount, hzero⟩ :=
    counted_run machine oracle { collection := s.resume, iterations := 0 } text
  have hsum : (mainLoop machine oracle s text).failures =
      (mainLoop machine oracle s text).failed.countP (· ≠ []) + surplus := by
    simpa [mainLoop, Collection.resume] using hcount
  constructor
  · rintro ⟨hrecorded, hcounted⟩
    refine ⟨fun url hurl => (hlisted url hurl).mp (hrecorded url hurl), ?_⟩
    apply hzero.mp
    omega
  · rintro ⟨hsettled, hprinted⟩
    refine ⟨fun url hurl => (hlisted url hurl).mpr (hsettled url hurl), ?_⟩
    have hnone := hzero.mpr hprinted
    omega

section Quiet

variable {machine : Machine} {oracle : Nat → Commands} {s : Collection} {text : List Char}

/-- What has been processed stays recorded. -/
theorem ended_subset_loopBody (machine : Machine) (oracle : Nat → Commands) (state : LoopState)
    (line : List Char) :
    state.collection.processed.ended ⊆
      (loopBody machine oracle state line).1.collection.processed.ended := by
  unfold loopBody
  split
  · exact List.Subset.refl _
  · rename_i url _
    have hmove := iteration_iterate machine (oracle state.iterations) url state.collection
    dsimp only
    generalize (iterate machine (oracle state.iterations) url state.collection).1 = after at hmove
    cases hmove with
    | found _ => exact List.Subset.refl _
    | done after _ _ hprocessed _ _ =>
        rw [hprocessed]
        exact LineFile.ended_subset_appendAll _ _
    | failed after _ _ hprocessed _ _ =>
        rw [hprocessed]
        exact List.Subset.refl _

theorem ended_subset_mainLoop (machine : Machine) (oracle : Nat → Commands) (s : Collection)
    (text : List Char) :
    s.processed.ended ⊆ (mainLoop machine oracle s text).processed.ended := by
  have hrun := ReadLoop.run_induction (loopBody machine oracle) fun state _ state' =>
    state.collection.processed.ended ⊆ state'.collection.processed.ended
  refine hrun (fun _ => List.Subset.refl _) ?_ { collection := s.resume, iterations := 0 } text
  intro state line rest state' hrest
  exact List.Subset.trans (ended_subset_loopBody machine oracle state line) hrest

theorem rest_loopBody_of_ended {state : LoopState} (h : state.collection.processed.rest = [])
    (line : List Char) : (loopBody machine oracle state line).1.collection.processed.rest = [] := by
  obtain ⟨hclosed, hkept⟩ := rest_loopBody machine oracle state line
  by_cases happends : Appends machine oracle (state, line)
  · exact hclosed happends
  · exact (hkept happends).trans h

/-- A loop that starts with no open line leaves none, and meets none. -/
theorem rest_run_of_ended {state : LoopState} (h : state.collection.processed.rest = [])
    (text : List Char) :
    (∀ visit ∈ ReadLoop.visits (loopBody machine oracle) state text,
        visit.1.collection.processed.rest = []) ∧
      (ReadLoop.run (loopBody machine oracle) state text).collection.processed.rest = [] := by
  have hrun := ReadLoop.run_induction (loopBody machine oracle) fun state visits state' =>
    state.collection.processed.rest = [] →
      (∀ visit ∈ visits, visit.1.collection.processed.rest = []) ∧
        state'.collection.processed.rest = []
  refine hrun ?_ ?_ state text h
  · intro state hended
    exact ⟨List.forall_mem_nil _, hended⟩
  · intro state line rest state' ih hended
    obtain ⟨hvisits, hfinal⟩ := ih (rest_loopBody_of_ended hended line)
    exact ⟨List.forall_mem_cons.mpr ⟨hended, hvisits⟩, hfinal⟩

theorem rest_mainLoop_of_ended (h : s.processed.rest = []) :
    (mainLoop machine oracle s text).processed.rest = [] :=
  (rest_run_of_ended h text).2

/-- Where no package fails, no failure is counted. -/
theorem failures_of_succeeding {machine : Machine} {oracle : Nat → Commands} {s : Collection}
    {text : List Char}
    (hsucceeds : ∀ n url c, (processPackage machine (oracle n) url c).succeeds = true) :
    (mainLoop machine oracle s text).failures = 0 := by
  have hrun := ReadLoop.run_induction (loopBody machine oracle)
    fun state _ state' => state'.collection.failures = state.collection.failures
  refine hrun (fun _ => rfl) ?_ { collection := s.resume, iterations := 0 } text
  intro state line rest state' hrest
  rw [hrest]
  unfold loopBody
  split
  · rfl
  · rename_i url _
    have hmove := iteration_iterate machine (oracle state.iterations) url state.collection
    dsimp only
    generalize (iterate machine (oracle state.iterations) url state.collection).1 = after at hmove
    cases hmove with
    | found _ => rfl
    | done after _ _ _ _ hfailures => exact hfailures
    | failed after _ hfails _ _ _ =>
        rw [hsucceeds] at hfails
        cases hfails

/-- When no command reads from the list, its lines are those that are delivered. -/
theorem delivered_of_quiet (hquiet : ∀ s line, (loopBody machine oracle s line).2 = 0) :
    (delivered machine oracle s text).map Prod.snd = ReadLoop.readLines text :=
  ReadLoop.visits_lines _ text fun visit _ => hquiet visit.1 visit.2

/-- Where `processed_urls.txt` has no open line, a URL is covered when it was there before or a
delivered line settles it. -/
theorem covered_iff_of_ended {url : Url} (hurl : url ≠ []) (hended : s.processed.rest = []) :
    Covered machine oracle s text url ↔ url ∈ s.processed.ended ∨
      ∃ visit ∈ delivered machine oracle s text, Settles machine oracle visit url := by
  have hvisits : ∀ visit ∈ delivered machine oracle s text,
      visit.1.collection.processed.rest = [] := (rest_run_of_ended hended text).1
  unfold Covered
  apply or_congr_right
  rw [or_iff_right fun h => hurl (h.1.trans hended)]
  apply exists_congr
  intro visit
  apply and_congr_right
  intro hvisit
  have hrest := hvisits visit hvisit
  unfold Enters Completes
  rw [or_iff_left fun h => h.1 hrest, and_iff_left (Or.inl hrest)]

/-- A URL that is no option is recorded then, as long as `processed_urls.txt` has no open line. -/
theorem records_of_quiet (hended : s.processed.rest = [])
    (hquiet : ∀ s line, (loopBody machine oracle s line).2 = 0) {url : Url}
    (hlisted : url ∈ listed machine text) (hoption : isOption url = false) :
    (mainLoop machine oracle s text).Records url := by
  obtain ⟨line, hline, hurl⟩ := List.mem_filterMap.mp hlisted
  have hlines : (delivered machine oracle s text).map Prod.snd = ReadLoop.readLines text :=
    delivered_of_quiet hquiet
  rw [← hlines] at hline
  obtain ⟨visit, hvisit, rfl⟩ := List.mem_map.mp hline
  apply (records_run machine oracle (urlOf_ne_nil hurl) _ text).mpr
  have hpasses : Passes (oracle visit.1.iterations) url := by
    intro h
    rw [hoption] at h
    cases h
  have hrest : visit.1.collection.processed.rest = [] :=
    (rest_run_of_ended hended text).1 visit hvisit
  exact Or.inr ⟨visit, hvisit, Or.inl ⟨⟨hurl, hpasses⟩, Or.inl hrest⟩⟩

/-- Every failure is counted. -/
theorem failed_of_no_failures (hnone : (mainLoop machine oracle s text).failures = 0) :
    ∀ url ∈ (mainLoop machine oracle s text).failed, url = [] := by
  obtain ⟨surplus, hcount, _⟩ :=
    counted_run machine oracle { collection := s.resume, iterations := 0 } text
  have hsum : (mainLoop machine oracle s text).failures =
      (mainLoop machine oracle s text).failed.countP (· ≠ []) + surplus := by
    simpa [mainLoop, Collection.resume] using hcount
  have hzero : (mainLoop machine oracle s text).failed.countP (· ≠ []) = 0 := by omega
  intro url hurl
  by_contra hne
  exact List.countP_eq_zero.mp hzero url hurl (decide_eq_true hne)

/-- A run without a failure has all URLs of its list in `processed_urls.txt`. -/
theorem processed_of_quiet (hended : s.processed.rest = [])
    (hquiet : ∀ s line, (loopBody machine oracle s line).2 = 0)
    (hnone : (mainLoop machine oracle s text).failures = 0) {url : Url}
    (hlisted : url ∈ listed machine text) (hoption : isOption url = false) :
    url ∈ (mainLoop machine oracle s text).processed.ended := by
  rcases records_of_quiet hended hquiet hlisted hoption with hprocessed | hfailed
  · exact hprocessed
  · obtain ⟨_, _, hurl⟩ := List.mem_filterMap.mp hlisted
    exact absurd (failed_of_no_failures hnone url hfailed) (urlOf_ne_nil hurl)

/-- A line of a URL that is recorded is passed over. -/
theorem loopBody_of_processed {state : LoopState} {line : List Char}
    (hprocessed : ∀ url, urlOf machine line = some url →
      isOption url = false ∧ url ∈ state.collection.processed.lines) :
    (loopBody machine oracle state line).1.collection = state.collection ∧
      (loopBody machine oracle state line).2 = 0 := by
  unfold loopBody
  split
  · exact ⟨rfl, rfl⟩
  · rename_i url hurl
    obtain ⟨hoption, hmem⟩ := hprocessed url hurl
    have hgrep : grepProcessed (oracle state.iterations) url state.collection = (true, 0) := by
      rw [grepProcessed, hoption, if_neg Bool.false_ne_true, decide_eq_true hmem]
    unfold iterate
    rw [hgrep]
    exact ⟨rfl, rfl⟩

/-- A run over URLs that are all recorded does nothing. -/
theorem mainLoop_of_processed
    (hprocessed : ∀ url ∈ listed machine text, isOption url = false ∧ url ∈ s.processed.lines) :
    mainLoop machine oracle s text = s.resume := by
  have hrun : ∀ state : LoopState, state.collection = s.resume →
      (ReadLoop.run (loopBody machine oracle) state text).collection = s.resume := by
    intro state hstate
    induction state, text using ReadLoop.run.induct (loopBody machine oracle) with
    | case1 state input hread => rw [ReadLoop.run_of_none hread, hstate]
    | case2 state input line rest hread ih =>
        have hline : ∀ url, urlOf machine line = some url →
            isOption url = false ∧ url ∈ state.collection.processed.lines := by
          intro url hurl
          rw [hstate]
          apply hprocessed
          rw [listed, ReadLoop.readLines_of_some hread]
          exact List.mem_filterMap.mpr ⟨line, List.mem_cons_self, hurl⟩
        obtain ⟨hsame, hreads⟩ : (loopBody machine oracle state line).1.collection =
            state.collection ∧ (loopBody machine oracle state line).2 = 0 :=
          loopBody_of_processed hline
        rw [ReadLoop.run_of_some hread]
        apply ih
        · intro url hurl
          rw [hreads, List.drop_zero, listed] at hurl
          apply hprocessed
          rw [listed, ReadLoop.readLines_of_some hread, List.filterMap_cons]
          split
          · exact hurl
          · exact List.mem_cons_of_mem _ hurl
        · rw [hsame, hstate]
  exact hrun _ rfl

end Quiet

/-- Nothing has been processed. -/
def Collection.empty : Collection where
  processed := .empty
  failed := []
  failures := 0
  checkouts := fun _ => none
  built := []
  written := []

/-- A machine in the C locale. -/
def sampleMachine : Machine where
  blanks := [[' '], ['\t'], ['\n'], ['\x0b'], ['\x0c'], ['\r']]
  basenameOption := fun url => url

/-- Commands that all succeed, with tests that read a kilobyte. -/
def greedyCommands : Commands where
  grepFinds := false
  grepReads := 0
  cloneSucceeds := true
  cloneLeaves := true
  cloneReads := 0
  hasPkgbuild := true
  buildSucceeds := true
  buildReads := 0
  hasSource := true
  testReads := 1024
  executed := true

/-- A list of two packages. -/
def firstUrl : Url := "https://h/a.git".toList

def secondUrl : Url := "https://h/b.git".toList

def sampleList : List Char := firstUrl ++ '\n' :: (secondUrl ++ ['\n'])

/-- The tests of the first package read the rest of the list: the second package is in
neither file. -/
theorem not_accounted_swallowed :
    ¬ Accounted sampleMachine sampleList
      (mainLoop sampleMachine (fun _ => greedyCommands) .empty sampleList) := by
  have hfirst : ReadLoop.readLine sampleList = some (firstUrl, secondUrl ++ ['\n']) := by decide
  have hsecond : ReadLoop.readLine (secondUrl ++ ['\n']) = some (secondUrl, []) := by decide
  have hend : ReadLoop.readLine [] = none := by decide
  intro h
  have hlisted : secondUrl ∈ listed sampleMachine sampleList := by
    rw [listed, ReadLoop.readLines_of_some hfirst, ReadLoop.readLines_of_some hsecond]
    apply List.mem_filterMap.mpr
    exact ⟨secondUrl, List.mem_cons_of_mem _ List.mem_cons_self, by decide⟩
  have hrecorded := h.recorded secondUrl hlisted
  rw [mainLoop, ReadLoop.run_of_some hfirst] at hrecorded
  have hswallowed : (secondUrl ++ ['\n']).drop
      (loopBody sampleMachine (fun _ => greedyCommands)
        { collection := Collection.empty.resume, iterations := 0 } firstUrl).2 = [] := by decide
  rw [hswallowed, ReadLoop.run_of_none hend] at hrecorded
  exact absurd hrecorded (by decide)

end Icflow.Collect
