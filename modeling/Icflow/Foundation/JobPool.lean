import Icflow.Foundation.Trace
import Mathlib.Data.List.Nodup

set_option autoImplicit false

/-!
# Background jobs over a shared store

A loop hands the entries of a queue to background jobs, at most `maxJobs` at a time: it
passes over an entry that is not present, admits one that is, waits for a free slot and
starts the job.  The jobs that run take the steps of `work` in any order.
-/

namespace Icflow.Foundation.JobPool

variable {σ ε β ω κ : Type}

/-- The entries, the jobs and what a job does. -/
structure Program (σ ε β ω : Type) where
  present : σ → ε → Prop
  spawn : ε → β
  launch : ε → ω
  /-- one step of a job; the job has ended when none follows -/
  work : σ → β → List ω → σ → Option β → Prop

/-- The loop and the jobs in progress. -/
structure State (σ ε β : Type) where
  store : σ
  queue : List ε
  /-- the entry that waits for a free slot -/
  admitted : Option ε
  /-- in the order they were started in -/
  running : List β

/-- Before the first entry. -/
def State.start (store : σ) (queue : List ε) : State σ ε β where
  store := store
  queue := queue
  admitted := none
  running := []

/-- The entries that have not been started. -/
def State.waiting (s : State σ ε β) : List ε := s.admitted.toList ++ s.queue

/-- The loop has ended and its `wait` returns. -/
structure State.Done (s : State σ ε β) : Prop where
  queue : s.queue = []
  admitted : s.admitted = none
  running : s.running = []

/-- One step of the loop or of a job. -/
inductive Step (program : Program σ ε β ω) (maxJobs : Nat) :
    State σ ε β → List ω → State σ ε β → Prop where
  | skip (s : State σ ε β) (entry : ε) (rest : List ε) (hidle : s.admitted = none)
      (hqueue : s.queue = entry :: rest) (habsent : ¬ program.present s.store entry) :
      Step program maxJobs s [] { s with queue := rest }
  | accept (s : State σ ε β) (entry : ε) (rest : List ε) (hidle : s.admitted = none)
      (hqueue : s.queue = entry :: rest) (hpresent : program.present s.store entry) :
      Step program maxJobs s [] { s with admitted := some entry, queue := rest }
  | start (s : State σ ε β) (entry : ε) (hadmitted : s.admitted = some entry)
      (hfree : s.running.length < maxJobs) :
      Step program maxJobs s [program.launch entry]
        { s with admitted := none, running := s.running ++ [program.spawn entry] }
  | work (s : State σ ε β) (earlier : List β) (job : β) (later : List β) (events : List ω)
      (store : σ) (next : Option β) (hrunning : s.running = earlier ++ job :: later)
      (hwork : program.work s.store job events store next) :
      Step program maxJobs s events
        { s with store := store, running := earlier ++ next.toList ++ later }

variable {program : Program σ ε β ω} {maxJobs : Nat} {s s' : State σ ε β} {events : List ω}

/-- Never more than `maxJobs` jobs run. -/
theorem Step.length_running (h : Step program maxJobs s events s')
    (hle : s.running.length ≤ maxJobs) : s'.running.length ≤ maxJobs := by
  cases h with
  | skip entry rest _ _ _ => exact hle
  | accept entry rest _ _ _ => exact hle
  | start entry _ hfree =>
      rw [List.length_append, List.length_singleton]
      exact hfree
  | work earlier job later _ store next hrunning _ =>
      have hnext : next.toList.length ≤ 1 := by cases next <;> simp
      rw [hrunning, List.length_append, List.length_cons] at hle
      rw [List.length_append, List.length_append]
      omega

section Keys

variable {key : β → κ} {entryKey : ε → κ}

/-- The keys of the jobs that run and of the entries that may still be started. -/
def State.keys (key : β → κ) (entryKey : ε → κ) (s : State σ ε β) : List κ :=
  s.running.map key ++ s.waiting.map entryKey

/-- A key is taken from an entry to its job and goes with the job. -/
theorem Step.keys_sublist (hspawn : ∀ entry, key (program.spawn entry) = entryKey entry)
    (hkeep : ∀ store job events store' next,
      program.work store job events store' (some next) → key next = key job)
    (h : Step program maxJobs s events s') :
    (s'.keys key entryKey).Sublist (s.keys key entryKey) := by
  cases h with
  | skip entry rest hidle hqueue _ =>
      simp only [State.keys, State.waiting, hidle, hqueue, Option.toList_none, List.nil_append,
        List.map_cons]
      exact List.Sublist.append_left (List.sublist_cons_self _ _) _
  | accept entry rest hidle hqueue _ =>
      simp only [State.keys, State.waiting, hidle, hqueue, Option.toList_none, List.nil_append,
        Option.toList_some, List.singleton_append]
      exact List.Sublist.refl _
  | start entry hadmitted _ =>
      simp only [State.keys, State.waiting, hadmitted, Option.toList_none, List.nil_append,
        Option.toList_some, List.singleton_append, List.map_append, List.map_cons, List.map_nil,
        hspawn, List.append_assoc]
      exact List.Sublist.refl _
  | work earlier job later _ store next hrunning hwork =>
      simp only [State.keys, State.waiting, hrunning, List.map_append, List.map_cons]
      refine List.Sublist.append_right ?_ _
      cases next with
      | none =>
          rw [Option.toList_none, List.map_nil, List.append_nil]
          exact List.Sublist.append_left (List.sublist_cons_self _ _) _
      | some next =>
          rw [Option.toList_some, List.map_singleton, hkeep _ _ _ _ _ hwork, List.append_assoc,
            List.singleton_append]

/-- A key stays until its entry is passed over or its job ends. -/
theorem Step.mem_keys (hspawn : ∀ entry, key (program.spawn entry) = entryKey entry)
    (hkeep : ∀ store job events store' next,
      program.work store job events store' (some next) → key next = key job)
    (h : Step program maxJobs s events s') {k : κ} (hk : k ∈ s.keys key entryKey) :
    k ∈ s'.keys key entryKey ∨
      (∃ entry, ¬ program.present s.store entry ∧ entryKey entry = k) ∨
      ∃ job ∈ s.running, program.work s.store job events s'.store none ∧ key job = k := by
  cases h with
  | skip entry rest hidle hqueue habsent =>
      simp only [State.keys, State.waiting, hidle, hqueue, Option.toList_none, List.nil_append,
        List.map_cons, List.mem_append, List.mem_cons] at hk ⊢
      rcases hk with hrunning | rfl | hrest
      · exact .inl (.inl hrunning)
      · exact .inr (.inl ⟨entry, habsent, rfl⟩)
      · exact .inl (.inr hrest)
  | accept entry rest hidle hqueue _ =>
      refine .inl ?_
      simpa [State.keys, State.waiting, hidle, hqueue] using hk
  | start entry hadmitted _ =>
      refine .inl ?_
      simpa [State.keys, State.waiting, hadmitted, hspawn] using hk
  | work earlier job later _ store next hrunning hwork =>
      cases next with
      | none =>
          rw [State.keys, hrunning, List.map_append, List.map_cons, List.mem_append, List.mem_append,
            List.mem_cons] at hk
          rw [State.keys, Option.toList_none, List.append_nil, List.map_append, List.mem_append,
            List.mem_append]
          rcases hk with (hearlier | rfl | hlater) | hwaiting
          · exact .inl (.inl (.inl hearlier))
          · refine .inr (.inr ⟨job, ?_, hwork, rfl⟩)
            rw [hrunning]
            exact List.mem_append_right _ List.mem_cons_self
          · exact .inl (.inl (.inr hlater))
          · exact .inl (.inr hwaiting)
      | some next =>
          refine .inl ?_
          simpa [State.keys, State.waiting, hrunning, hkeep _ _ _ _ _ hwork] using hk

/-- Jobs with the same key cannot meet: their keys are apart, or they run one by one. -/
structure State.Apart (key : β → κ) (entryKey : ε → κ) (maxJobs : Nat) (s : State σ ε β) :
    Prop where
  length : s.running.length ≤ maxJobs
  keys : maxJobs ≤ 1 ∨ (s.keys key entryKey).Nodup

theorem State.apart_start {store : σ} {queue : List ε}
    (h : maxJobs ≤ 1 ∨ (queue.map entryKey).Nodup) :
    (State.start store queue : State σ ε β).Apart key entryKey maxJobs where
  length := Nat.zero_le _
  keys := h

theorem State.Apart.step (happart : s.Apart key entryKey maxJobs)
    (hspawn : ∀ entry, key (program.spawn entry) = entryKey entry)
    (hkeep : ∀ store job events store' next,
      program.work store job events store' (some next) → key next = key job)
    (h : Step program maxJobs s events s') : s'.Apart key entryKey maxJobs where
  length := h.length_running happart.length
  keys := happart.keys.imp id fun hnodup => hnodup.sublist (h.keys_sublist hspawn hkeep)

/-- No two jobs that run have the same key. -/
theorem State.Apart.nodup (h : s.Apart key entryKey maxJobs) : (s.running.map key).Nodup := by
  rcases h.keys with hone | hnodup
  · have hlength := Nat.le_trans h.length hone
    match s.running, hlength with
    | [], _ => exact List.nodup_nil
    | [job], _ => exact List.nodup_singleton _
  · exact hnodup.sublist (List.sublist_append_left _ _)

/-- The other jobs have other keys. -/
theorem State.Apart.ne_of_mem (h : s.Apart key entryKey maxJobs) {earlier later : List β}
    {job other : β} (hrunning : s.running = earlier ++ job :: later)
    (hother : other ∈ earlier ++ later) : key other ≠ key job := by
  have hnodup := h.nodup
  rw [hrunning, List.map_append, List.map_cons, List.nodup_middle] at hnodup
  intro heq
  refine (List.nodup_cons.mp hnodup).1 ?_
  rw [← List.map_append, ← heq]
  exact List.mem_map_of_mem hother

end Keys

section Alone

/-- One step of a job that goes on. -/
def Turn (program : Program σ ε β ω) (s : σ × β) (events : List ω) (s' : σ × β) : Prop :=
  program.work s.1 s.2 events s'.1 (some s'.2)

/-- A job goes on while the others stand still. -/
theorem trace_turns {store store' : σ} {job job' : β} {events : List ω}
    (h : Trace (Turn program) (store, job) events (store', job')) (queue : List ε)
    (admitted : Option ε) (earlier later : List β) :
    Trace (Step program maxJobs) ⟨store, queue, admitted, earlier ++ job :: later⟩ events
      ⟨store', queue, admitted, earlier ++ job' :: later⟩ := by
  have hmap : ∀ s more s', Turn program s more s' →
      Step program maxJobs ⟨s.1, queue, admitted, earlier ++ s.2 :: later⟩ more
        ⟨s'.1, queue, admitted, earlier ++ s'.2 :: later⟩ := by
    intro s more s' hturn
    have hstep : Step program maxJobs ⟨s.1, queue, admitted, earlier ++ s.2 :: later⟩ more
        ⟨s'.1, queue, admitted, earlier ++ (some s'.2).toList ++ later⟩ :=
      .work _ earlier s.2 later more s'.1 (some s'.2) rfl hturn
    rw [Option.toList_some, List.append_assoc, List.singleton_append] at hstep
    exact hstep
  exact h.map (fun s => State.mk s.1 queue admitted (earlier ++ s.2 :: later)) hmap

/-- A job that runs from `job` to its end while no other job takes a step. -/
inductive Alone (program : Program σ ε β ω) : σ → β → List ω → σ → Prop where
  | last {store : σ} {job : β} {events : List ω} {store' : σ}
      (h : program.work store job events store' none) : Alone program store job events store'
  | more {store : σ} {job : β} {events : List ω} {store' : σ} {next : β} {later : List ω}
      {store'' : σ} (h : program.work store job events store' (some next))
      (hrest : Alone program store' next later store'') :
      Alone program store job (events ++ later) store''

theorem Alone.trace {store store' : σ} {job : β} {events : List ω}
    (h : Alone program store job events store') (queue : List ε) (admitted : Option ε)
    (others : List β) :
    Trace (Step program maxJobs) ⟨store, queue, admitted, others ++ [job]⟩ events
      ⟨store', queue, admitted, others⟩ := by
  induction h with
  | @last store job events store' hwork =>
      have hstep : Step program maxJobs ⟨store, queue, admitted, others ++ [job]⟩ events
          ⟨store', queue, admitted, others ++ none.toList ++ []⟩ :=
        .work _ others job [] events store' none rfl hwork
      simp only [Option.toList_none, List.append_nil] at hstep
      exact .single hstep
  | @more store job events store' next later store'' hwork _ ih =>
      have hstep : Step program maxJobs ⟨store, queue, admitted, others ++ [job]⟩ events
          ⟨store', queue, admitted, others ++ (some next).toList ++ []⟩ :=
        .work _ others job [] events store' (some next) rfl hwork
      simp only [Option.toList_some, List.append_nil] at hstep
      exact .head hstep ih

/-- The next entry is started. -/
theorem trace_started {store : σ} {entry : ε} (hpresent : program.present store entry)
    (queue : List ε) (others : List β) (hfree : others.length < maxJobs) :
    Trace (Step program maxJobs) ⟨store, entry :: queue, none, others⟩ [program.launch entry]
      ⟨store, queue, none, others ++ [program.spawn entry]⟩ := by
  have haccept : Step program maxJobs ⟨store, entry :: queue, none, others⟩ []
      ⟨store, queue, some entry, others⟩ := .accept _ entry queue rfl rfl hpresent
  have hstart : Step program maxJobs ⟨store, queue, some entry, others⟩ [program.launch entry]
      ⟨store, queue, none, others ++ [program.spawn entry]⟩ := .start _ entry rfl hfree
  exact .head haccept (.single hstart)

/-- The next entry is started and runs to its end while the others stand still. -/
theorem Alone.trace_entry {store store' : σ} {entry : ε} {events : List ω}
    (h : Alone program store (program.spawn entry) events store')
    (hpresent : program.present store entry) (queue : List ε) (others : List β)
    (hfree : others.length < maxJobs) :
    Trace (Step program maxJobs) ⟨store, entry :: queue, none, others⟩
      (program.launch entry :: events) ⟨store', queue, none, others⟩ :=
  (trace_started hpresent queue others hfree).trans (h.trace queue none others)

/-- The first entries can be run one after the other.  What every job keeps holds at the
end. -/
theorem exists_trace_append (Inv : List ω → σ → Prop) (entries queue : List ε) (others : List β)
    (hfree : others.length < maxJobs)
    (halone : ∀ entry ∈ entries, ∀ before store, Inv before store → program.present store entry →
      ∃ events store', Alone program store (program.spawn entry) events store' ∧
        Inv (before ++ program.launch entry :: events) store')
    (before : List ω) (store : σ) (hinv : Inv before store) :
    ∃ events store', Trace (Step program maxJobs) ⟨store, entries ++ queue, none, others⟩ events
      ⟨store', queue, none, others⟩ ∧ Inv (before ++ events) store' := by
  induction entries generalizing before store with
  | nil =>
      refine ⟨[], store, .refl, ?_⟩
      rw [List.append_nil]
      exact hinv
  | cons entry rest ih =>
      have hrest := fun next hnext => halone next (List.mem_cons_of_mem entry hnext)
      rcases Classical.em (program.present store entry) with hpresent | habsent
      · obtain ⟨events, store₁, hjob, hinv₁⟩ :=
          halone entry List.mem_cons_self before store hinv hpresent
        obtain ⟨later, store₂, htrace, hinv₂⟩ := ih hrest _ store₁ hinv₁
        have hentry := hjob.trace_entry hpresent (rest ++ queue) others hfree
        refine ⟨_, store₂, hentry.trans htrace, ?_⟩
        rw [← List.append_assoc]
        exact hinv₂
      · obtain ⟨later, store₂, htrace, hinv₂⟩ := ih hrest before store hinv
        have hskip : Step program maxJobs ⟨store, entry :: (rest ++ queue), none, others⟩ []
            ⟨store, rest ++ queue, none, others⟩ :=
          .skip _ entry (rest ++ queue) rfl rfl habsent
        exact ⟨later, store₂, .head hskip htrace, hinv₂⟩

/-- All entries can be run one after the other. -/
theorem exists_trace_all (Inv : List ω → σ → Prop) (entries : List ε) (others : List β)
    (hfree : others.length < maxJobs)
    (halone : ∀ entry ∈ entries, ∀ before store, Inv before store → program.present store entry →
      ∃ events store', Alone program store (program.spawn entry) events store' ∧
        Inv (before ++ program.launch entry :: events) store')
    (before : List ω) (store : σ) (hinv : Inv before store) :
    ∃ events store', Trace (Step program maxJobs) ⟨store, entries, none, others⟩ events
      ⟨store', [], none, others⟩ ∧ Inv (before ++ events) store' := by
  have hall := exists_trace_append Inv entries [] others hfree halone before store hinv
  rw [List.append_nil] at hall
  exact hall

end Alone

end Icflow.Foundation.JobPool
