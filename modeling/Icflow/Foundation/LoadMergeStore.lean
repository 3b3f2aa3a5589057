import Mathlib.Data.Finset.Lattice.Fold
import Mathlib.Data.Fintype.Basic

set_option autoImplicit false

/-!
# Load, merge and store under a lock that covers the store only

Each process joins a shared value into its own, takes an exclusive lock, stores its
own value and gives the lock back.  Values live in any join-semilattice with a least
element.

Which contributions a store carries depends on the schedule alone: `Track` follows the
processes whose contributions are in the shared value and in each local one.
`run_value` says that the shared value is the initial one joined with exactly these,
so nothing is lost if and only if what is not carried was there anyway.
-/

namespace Icflow.Foundation.LoadMergeStore

variable {ι α : Type} [DecidableEq ι]

/-- Where a process stands. -/
inductive Phase where
  | loading
  | loaded
  | locked
  | stored
  | released
  deriving DecidableEq, Repr

/-- One step of one process. -/
inductive Event (ι : Type) where
  | load (p : ι)
  | acquire (p : ι)
  | store (p : ι)
  | release (p : ι)
  deriving DecidableEq, Repr

/-- The shared value, and the value and the phase of every process. -/
structure State (ι α : Type) where
  shared : α
  own : ι → α
  phase : ι → Phase

/-- The process is inside the lock. -/
def Phase.Holds (phase : Phase) : Prop := phase = .locked ∨ phase = .stored

variable [SemilatticeSup α]

/-- One step, as far as the lock permits it. -/
inductive Step : State ι α → Event ι → State ι α → Prop where
  | load {s : State ι α} (p : ι) (hphase : s.phase p = .loading) :
      Step s (.load p)
        { s with
          own := Function.update s.own p (s.own p ⊔ s.shared)
          phase := Function.update s.phase p .loaded }
  | acquire {s : State ι α} (p : ι) (hphase : s.phase p = .loaded)
      (hfree : ∀ q, ¬ (s.phase q).Holds) :
      Step s (.acquire p) { s with phase := Function.update s.phase p .locked }
  | store {s : State ι α} (p : ι) (hphase : s.phase p = .locked) :
      Step s (.store p)
        { s with shared := s.own p, phase := Function.update s.phase p .stored }
  | release {s : State ι α} (p : ι) (hphase : s.phase p = .stored) :
      Step s (.release p) { s with phase := Function.update s.phase p .released }

/-- A schedule from one state to another. -/
inductive Run : State ι α → List (Event ι) → State ι α → Prop where
  | nil (s : State ι α) : Run s [] s
  | cons {s s' final : State ι α} {event : Event ι} {schedule : List (Event ι)}
      (hstep : Step s event s') (hrun : Run s' schedule final) : Run s (event :: schedule) final

/-- Every process starts with its own contribution. -/
def State.initial (shared : α) (contribution : ι → α) : State ι α where
  shared := shared
  own := contribution
  phase := fun _ => .loading

/-! ## What a schedule carries -/

/-- Whose contributions are in the shared value, and in the value of each process. -/
structure Track (ι : Type) where
  shared : Finset ι
  own : ι → Finset ι

/-- Nothing is shared, and every process has its own contribution. -/
def Track.initial : Track ι where
  shared := ∅
  own := fun p => {p}

/-- Follow one event. -/
def Track.step (track : Track ι) : Event ι → Track ι
  | .load p => { track with own := Function.update track.own p (track.own p ∪ track.shared) }
  | .store p => { track with shared := track.own p }
  | .acquire _ | .release _ => track

/-- The processes whose contributions the shared value holds after a schedule. -/
def carried (schedule : List (Event ι)) : Finset ι :=
  (schedule.foldl Track.step Track.initial).shared

variable [OrderBot α]

/-- The tracked sets account for every value. -/
structure Track.Accounts (track : Track ι) (start : α) (contribution : ι → α)
    (s : State ι α) : Prop where
  shared : s.shared = start ⊔ track.shared.sup contribution
  before : ∀ p, s.phase p = .loading → s.own p = contribution p ∧ track.own p = {p}
  after : ∀ p, s.phase p ≠ .loading → s.own p = start ⊔ (track.own p).sup contribution

omit [DecidableEq ι] in
theorem Track.accounts_initial (start : α) (contribution : ι → α) :
    Track.initial.Accounts start contribution (State.initial start contribution) where
  shared := by simp [State.initial, Track.initial]
  before := fun _ _ => ⟨rfl, rfl⟩
  after := fun _ h => absurd rfl h

/-- A step that changes no value and keeps the processes that have not loaded keeps the
account. -/
theorem Track.Accounts.of_phase {track : Track ι} {start : α} {contribution : ι → α}
    {s : State ι α} (h : track.Accounts start contribution s) {p : ι} {phase : Phase}
    (hloaded : s.phase p ≠ .loading) (hphase : phase ≠ .loading) :
    track.Accounts start contribution
      { s with phase := Function.update s.phase p phase } where
  shared := h.shared
  before := by
    intro q hq
    by_cases hqp : q = p
    · subst hqp
      simp only [Function.update_self] at hq
      exact absurd hq hphase
    · simp only [Function.update_of_ne hqp] at hq
      exact h.before q hq
  after := by
    intro q hq
    by_cases hqp : q = p
    · subst hqp
      exact h.after q hloaded
    · simp only [Function.update_of_ne hqp] at hq
      exact h.after q hq

theorem Track.Accounts.step {track : Track ι} {start : α} {contribution : ι → α}
    {s s' : State ι α} {event : Event ι} (h : track.Accounts start contribution s)
    (hstep : Step s event s') : (track.step event).Accounts start contribution s' := by
  cases hstep with
  | load p hphase =>
      obtain ⟨hown, htrack⟩ := h.before p hphase
      refine ⟨h.shared, ?_, ?_⟩
      · intro q hq
        by_cases hqp : q = p
        · subst hqp
          simp only [Function.update_self] at hq
          cases hq
        · simp only [Function.update_of_ne hqp, Track.step] at hq ⊢
          exact h.before q hq
      · intro q hq
        by_cases hqp : q = p
        · subst hqp
          simp only [Function.update_self, Track.step]
          rw [hown, htrack, h.shared, Finset.sup_union, Finset.sup_singleton, sup_left_comm]
        · simp only [Function.update_of_ne hqp, Track.step] at hq ⊢
          exact h.after q hq
  | acquire p hphase _ =>
      have hloaded : s.phase p ≠ .loading := by
        rw [hphase]
        decide
      exact h.of_phase hloaded (by decide)
  | store p hphase =>
      have hloaded : s.phase p ≠ .loading := by
        rw [hphase]
        decide
      have hkeep : track.Accounts start contribution
          { s with phase := Function.update s.phase p .stored } := h.of_phase hloaded (by decide)
      exact ⟨h.after p hloaded, hkeep.before, hkeep.after⟩
  | release p hphase =>
      have hloaded : s.phase p ≠ .loading := by
        rw [hphase]
        decide
      exact h.of_phase hloaded (by decide)

theorem Track.Accounts.run {start : α} {contribution : ι → α} {s final : State ι α}
    {schedule : List (Event ι)} (hrun : Run s schedule final) :
    ∀ {track : Track ι}, track.Accounts start contribution s →
      (schedule.foldl Track.step track).Accounts start contribution final := by
  induction hrun with
  | nil s => exact fun h => h
  | cons hstep _ ih => exact fun h => ih (h.step hstep)

/-- The shared value after a schedule: the initial one and what was carried. -/
theorem run_value {start : α} {contribution : ι → α} {final : State ι α}
    {schedule : List (Event ι)} (hrun : Run (State.initial start contribution) schedule final) :
    final.shared = start ⊔ (carried schedule).sup contribution :=
  (Track.Accounts.run hrun (Track.accounts_initial start contribution)).shared

/-! ## When everything is carried -/

/-- No process loads while another one is between its load and its store; `pending` are
the processes in between. -/
def SerialFrom : Finset ι → List (Event ι) → Prop
  | _, [] => True
  | pending, .load p :: schedule => pending = ∅ ∧ SerialFrom {p} schedule
  | pending, .store p :: schedule => SerialFrom (pending.erase p) schedule
  | pending, .acquire _ :: schedule | pending, .release _ :: schedule =>
      SerialFrom pending schedule

/-- The load-to-store sections of a schedule do not overlap. -/
def Serial (schedule : List (Event ι)) : Prop := SerialFrom ∅ schedule

/-- The process has loaded and not stored. -/
def Phase.Pending (phase : Phase) : Prop := phase = .loaded ∨ phase = .locked

/-- The process has stored. -/
def Phase.Done (phase : Phase) : Prop := phase = .stored ∨ phase = .released

/-- What is carried anywhere was stored before, apart from a process's own
contribution. -/
structure Track.Stored (track : Track ι) (s : State ι α) : Prop where
  shared : ∀ q ∈ track.shared, (s.phase q).Done
  own : ∀ p, ∀ q ∈ track.own p, q = p ∨ (s.phase q).Done
  self : ∀ p, p ∈ track.own p
  fresh : ∀ p, s.phase p = .loading → track.own p = {p}

/-- While the sections have not overlapped: the shared value carries every process that
has stored, and so does the value of a process in its section. -/
structure Track.Whole (track : Track ι) (pending : Finset ι) (s : State ι α) : Prop where
  pending : ∀ p, p ∈ pending ↔ (s.phase p).Pending
  shared : ∀ q, (s.phase q).Done → q ∈ track.shared
  own : ∀ p, (s.phase p).Pending → ∀ q, (s.phase q).Done → q ∈ track.own p
  single : ∀ p q, (s.phase p).Pending → (s.phase q).Pending → p = q

/-- Two processes that no value carries together. -/
structure Track.Apart (track : Track ι) (s : State ι α) (p q : ι) : Prop where
  loaded : s.phase p ≠ .loading ∧ s.phase q ≠ .loading
  shared : ¬ (p ∈ track.shared ∧ q ∈ track.shared)
  own : ∀ r, ¬ (p ∈ track.own r ∧ q ∈ track.own r)

omit [OrderBot α] in
/-- Only a load opens a section, and only a store closes one. -/
theorem Step.pending_iff {s s' : State ι α} {event : Event ι} (hstep : Step s event s') (q : ι) :
    (s'.phase q).Pending ↔
      match event with
      | .load p => q = p ∨ (s.phase q).Pending
      | .store p => q ≠ p ∧ (s.phase q).Pending
      | .acquire _ | .release _ => (s.phase q).Pending := by
  cases hstep <;> simp only [Function.update_apply, Phase.Pending] <;> split <;> simp_all

omit [OrderBot α] in
/-- Only a store is remembered as one. -/
theorem Step.done_iff {s s' : State ι α} {event : Event ι} (hstep : Step s event s') (q : ι) :
    (s'.phase q).Done ↔
      match event with
      | .store p => q = p ∨ (s.phase q).Done
      | .load _ | .acquire _ | .release _ => (s.phase q).Done := by
  cases hstep <;> simp only [Function.update_apply, Phase.Done] <;> split <;> simp_all

omit [SemilatticeSup α] [OrderBot α] [DecidableEq ι] in
theorem Track.stored_initial (start : α) (contribution : ι → α) :
    Track.initial.Stored (State.initial start contribution) where
  shared := by simp [Track.initial]
  own := by
    intro p q hq
    exact Or.inl (Finset.mem_singleton.mp hq)
  self := fun p => Finset.mem_singleton_self p
  fresh := fun _ _ => rfl

omit [OrderBot α] in
/-- No step goes back to the start of a process. -/
theorem Step.loading {s s' : State ι α} {event : Event ι} (hstep : Step s event s') {q : ι}
    (hq : s'.phase q = .loading) : s.phase q = .loading ∧ event ≠ .load q := by
  cases hstep <;> simp only [Function.update_apply] at hq <;> split at hq <;> grind

theorem Track.mem_own_load {track : Track ι} {p q r : ι} :
    q ∈ (track.step (.load p)).own r ↔ q ∈ track.own r ∨ (r = p ∧ q ∈ track.shared) := by
  by_cases hrp : r = p
  · subst hrp
    simp [Track.step]
  · simp [Track.step, hrp]

omit [OrderBot α] in
theorem Track.Stored.step {track : Track ι} {s s' : State ι α} {event : Event ι}
    (h : track.Stored s) (hstep : Step s event s') : (track.step event).Stored s' := by
  have hdone := hstep.done_iff
  have hkeep : ∀ q, (s.phase q).Done → (s'.phase q).Done := by
    intro q hq
    rw [hdone]
    cases event with
    | store p => exact Or.inr hq
    | load p | acquire p | release p => exact hq
  have hloading : ∀ q, s'.phase q = .loading → s.phase q = .loading ∧ event ≠ .load q :=
    fun q hq => hstep.loading hq
  cases event with
  | acquire p | release p =>
      exact ⟨fun q hq => hkeep q (h.shared q hq),
        fun r q hq => (h.own r q hq).imp_right (hkeep q), h.self,
        fun q hq => h.fresh q (hloading q hq).1⟩
  | load p =>
      refine ⟨fun q hq => hkeep q (h.shared q hq), ?_, ?_, ?_⟩
      · intro r q hq
        rcases Track.mem_own_load.mp hq with hq | ⟨_, hq⟩
        · exact (h.own r q hq).imp_right (hkeep q)
        · exact Or.inr (hkeep q (h.shared q hq))
      · exact fun r => Track.mem_own_load.mpr (Or.inl (h.self r))
      · intro q hq
        obtain ⟨hfresh, hqp⟩ := hloading q hq
        have hne : q ≠ p := fun heq => hqp (heq ▸ rfl)
        simp only [Track.step, Function.update_of_ne hne]
        exact h.fresh q hfresh
  | store p =>
      refine ⟨fun q hq => (hdone q).mpr (h.own p q hq),
        fun r q hq => (h.own r q hq).imp_right (hkeep q), h.self,
        fun q hq => h.fresh q (hloading q hq).1⟩

omit [OrderBot α] in
/-- One event of a serial schedule keeps the whole carried. -/
theorem Track.Whole.step {track : Track ι} {pending : Finset ι} {s s' : State ι α}
    {event : Event ι} (h : track.Whole pending s) (hstored : track.Stored s)
    (hstep : Step s event s') {schedule : List (Event ι)}
    (hserial : SerialFrom pending (event :: schedule)) :
    ∃ pending', SerialFrom pending' schedule ∧ (track.step event).Whole pending' s' := by
  have hdone := hstep.done_iff
  have hpending := hstep.pending_iff
  cases event with
  | acquire p | release p =>
      exact ⟨pending, hserial, fun q => (h.pending q).trans (hpending q).symm,
        fun q hq => h.shared q ((hdone q).mp hq),
        fun r hr q hq => h.own r ((hpending r).mp hr) q ((hdone q).mp hq),
        fun q r hq hr => h.single q r ((hpending q).mp hq) ((hpending r).mp hr)⟩
  | load p =>
      obtain ⟨hnone, hserial⟩ := hserial
      have honly : ∀ q, (s'.phase q).Pending ↔ q = p := by
        intro q
        rw [hpending, ← h.pending, hnone]
        simp
      refine ⟨{p}, hserial, fun q => Finset.mem_singleton.trans (honly q).symm,
        fun q hq => h.shared q ((hdone q).mp hq), ?_, ?_⟩
      · intro r hr q hq
        exact Track.mem_own_load.mpr (Or.inr ⟨(honly r).mp hr, h.shared q ((hdone q).mp hq)⟩)
      · intro q r hq hr
        rw [(honly q).mp hq, (honly r).mp hr]
  | store p =>
      have hp : (s.phase p).Pending := by
        cases hstep with
        | store _ hphase => exact Or.inr hphase
      have hnone : ∀ q, ¬ (s'.phase q).Pending := by
        intro q hq
        obtain ⟨hqp, hq⟩ := (hpending q).mp hq
        exact hqp (h.single q p hq hp)
      refine ⟨pending.erase p, hserial, ?_, ?_, fun r hr => absurd hr (hnone r),
        fun q r hq => absurd hq (hnone q)⟩
      · intro q
        rw [Finset.mem_erase, h.pending]
        exact (hpending q).symm
      · intro q hq
        rcases (hdone q).mp hq with rfl | hq
        · exact hstored.self q
        · exact h.own p hp q hq

omit [OrderBot α] in
/-- Two processes that are kept apart stay apart. -/
theorem Track.Apart.step {track : Track ι} {s s' : State ι α} {p q : ι} {event : Event ι}
    (h : track.Apart s p q) (hstored : track.Stored s) (hstep : Step s event s') :
    (track.step event).Apart s' p q := by
  refine ⟨⟨fun hp => h.loaded.1 (hstep.loading hp).1, fun hq => h.loaded.2 (hstep.loading hq).1⟩,
    ?_, ?_⟩
  · cases event with
    | load r | acquire r | release r => exact h.shared
    | store r => exact h.own r
  · intro r
    cases event with
    | acquire r' | release r' | store r' => exact h.own r
    | load r' =>
        rintro ⟨hp, hq⟩
        rcases Track.mem_own_load.mp hp with hp' | ⟨hr, hp'⟩
        · rcases Track.mem_own_load.mp hq with hq' | ⟨hr, hq'⟩
          · exact h.own r ⟨hp', hq'⟩
          · -- a process that loads had only itself, and `p` has loaded before
            have hfresh : s.phase r' = .loading := by
              cases hstep with
              | load _ hphase => exact hphase
            rw [hr, hstored.fresh r' hfresh, Finset.mem_singleton] at hp'
            exact h.loaded.1 (hp' ▸ hfresh)
        · rcases Track.mem_own_load.mp hq with hq' | ⟨_, hq'⟩
          · have hfresh : s.phase r' = .loading := by
              cases hstep with
              | load _ hphase => exact hphase
            rw [hr, hstored.fresh r' hfresh, Finset.mem_singleton] at hq'
            exact h.loaded.2 (hq' ▸ hfresh)
          · exact h.shared ⟨hp', hq'⟩

omit [OrderBot α] in
theorem Track.Apart.run {s final : State ι α} {schedule : List (Event ι)} {p q : ι}
    (hrun : Run s schedule final) : ∀ {track : Track ι}, track.Apart s p q → track.Stored s →
      ¬ (p ∈ (schedule.foldl Track.step track).shared ∧
        q ∈ (schedule.foldl Track.step track).shared) := by
  induction hrun with
  | nil s => exact fun h _ => h.shared
  | cons hstep _ ih => exact fun h hstored => ih (h.step hstored hstep) (hstored.step hstep)

omit [OrderBot α] in
/-- A serial schedule carries every process that has stored. -/
theorem Track.Whole.run {s final : State ι α} {schedule : List (Event ι)}
    (hrun : Run s schedule final) : ∀ {track : Track ι} {pending : Finset ι},
      track.Whole pending s → track.Stored s → SerialFrom pending schedule →
      ∀ q, (final.phase q).Done → q ∈ (schedule.foldl Track.step track).shared := by
  induction hrun with
  | nil s => exact fun h _ _ => h.shared
  | cons hstep _ ih =>
      intro track pending h hstored hserial
      obtain ⟨pending', hserial', hwhole⟩ := h.step hstored hstep hserial
      exact ih hwhole (hstored.step hstep) hserial'

omit [OrderBot α] in
/-- A load inside another section keeps the two processes apart for good, so a schedule
that carries everything is serial. -/
theorem serialFrom_of_carries {s final : State ι α} {schedule : List (Event ι)}
    (hrun : Run s schedule final) : ∀ {track : Track ι} {pending : Finset ι},
      track.Stored s → (∀ p, p ∈ pending ↔ (s.phase p).Pending) →
      (∀ p, p ∈ (schedule.foldl Track.step track).shared) → SerialFrom pending schedule := by
  induction hrun with
  | nil s => exact fun _ _ _ => trivial
  | @cons s s' final event schedule hstep hrun ih =>
      intro track pending hstored hpending hall
      have hnext := hstep.pending_iff
      cases event with
      | acquire p | release p =>
          exact ih (hstored.step hstep) (fun q => (hpending q).trans (hnext q).symm) hall
      | store p =>
          refine ih (hstored.step hstep) (fun q => ?_) hall
          rw [Finset.mem_erase, hpending]
          exact (hnext q).symm
      | load p =>
          have hp : s.phase p = .loading := by
            cases hstep with
            | load _ hphase => exact hphase
          have hnone : pending = ∅ := by
            by_contra hne
            obtain ⟨q, hq⟩ := Finset.nonempty_iff_ne_empty.mpr hne
            have hqPending := (hpending q).mp hq
            have hqDone : ¬ (s.phase q).Done := by
              rcases hqPending with h | h <;> rw [h] <;> rintro (h' | h') <;> cases h'
            have hpDone : ¬ (s.phase p).Done := by
              rw [hp]
              rintro (h' | h') <;> cases h'
            have hqp : q ≠ p := by
              rintro rfl
              rw [hp] at hqPending
              rcases hqPending with h' | h' <;> cases h'
            have hapart : (track.step (.load p)).Apart s' p q := by
              refine ⟨⟨?_, ?_⟩, ?_, ?_⟩
              · exact fun h => (hstep.loading h).2 rfl
              · intro h
                rw [(hstep.loading h).1] at hqPending
                rcases hqPending with h' | h' <;> cases h'
              · exact fun h => hpDone (hstored.shared p h.1)
              · rintro r ⟨hpr, hqr⟩
                rcases Track.mem_own_load.mp hqr with hqr | ⟨_, hqr⟩
                · rcases hstored.own r q hqr with rfl | h
                  · rcases Track.mem_own_load.mp hpr with hpr | ⟨heq, _⟩
                    · rcases hstored.own q p hpr with heq | h
                      · exact hqp heq.symm
                      · exact hpDone h
                    · exact hqp heq
                  · exact hqDone h
                · exact hqDone (hstored.shared q hqr)
            exact Track.Apart.run hrun hapart (hstored.step hstep) ⟨hall p, hall q⟩
          refine ⟨hnone, ih (hstored.step hstep) (fun q => ?_) hall⟩
          rw [Finset.mem_singleton, hnext, ← hpending, hnone]
          simp

omit [OrderBot α] in
/-- A complete schedule carries everything if and only if its sections do not
overlap. -/
theorem carried_all_iff_serial {start : α} {contribution : ι → α} {final : State ι α}
    {schedule : List (Event ι)} (hrun : Run (State.initial start contribution) schedule final)
    (hdone : ∀ p, (final.phase p).Done) :
    (∀ p, p ∈ carried schedule) ↔ Serial schedule := by
  have hstored := Track.stored_initial start contribution
  have hidle : ∀ p, p ∈ (∅ : Finset ι) ↔
      (((State.initial start contribution).phase p).Pending) := by
    intro p
    refine iff_of_false (Finset.notMem_empty p) ?_
    rintro (h | h) <;> cases h
  constructor
  · exact serialFrom_of_carries hrun hstored hidle
  · intro hserial p
    refine Track.Whole.run hrun ⟨hidle, ?_, ?_, ?_⟩ hstored hserial p (hdone p)
    · rintro q (h | h) <;> cases h
    · rintro q (h | h) <;> cases h
    · rintro q r (h | h) <;> cases h

end Icflow.Foundation.LoadMergeStore
