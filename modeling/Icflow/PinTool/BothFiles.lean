import Icflow.PinTool.LockProtocol
import Mathlib.Algebra.Order.BigOperators.Group.Finset
import Mathlib.Order.WellFounded

set_option autoImplicit false

/-!
# `Fini` of several processes on both result files

A process loads the jumps and the calls, and then saves the jumps and the calls; each
file has its own lock.  `Fini` is made here of the single system calls of two copies of
the protocol of one file, put in order for each process.  A process never waits for one
lock while it has the other, so no schedule is stuck before all processes have ended,
and as each of them has a bounded number of calls to make, no schedule goes on forever.
-/

namespace Icflow.PinTool

open Icflow.Foundation

/-! ## Both files -/

/-- The state of `Fini` at each of the files. -/
structure BothState (n : Nat) where
  jumps : SaveState n
  calls : SaveState n

/-- A system call on one of the files, or the end of a process from outside. -/
inductive BothEvent (n : Nat) where
  | jumps (event : SaveEvent n)
  | calls (event : SaveEvent n)
  | kill (p : Fin n)
  deriving DecidableEq, Repr

/-- A process ends from outside. -/
def BothEvent.isKill {n : Nat} : BothEvent n → Bool
  | .kill _ => true
  | .jumps _ | .calls _ => false

namespace BothState

variable {n : Nat}

/-- Each process holds what it observed. -/
def start (jumpFile callFile : Option (List Char)) (observedJumps observedCalls : Fin n → EdgeMap) :
    BothState n where
  jumps := .start jumpFile observedJumps
  calls := .start callFile observedCalls

/-- The process has come to its end: `Fini` has returned, a load has thrown, or it was
killed. -/
def ended (s : BothState n) (p : Fin n) : Bool :=
  s.jumps.phase p == .aborted || !(s.calls.phase p).alive

/-- The turn of a call on the file of jumps: it is loaded first, and saved when both files
are loaded. -/
def permitsJumps (s : BothState n) : SaveEvent n → Bool
  | .openLock p => s.calls.phase p == .loaded
  | .kill _ => false
  | .load _ | .lock _ | .truncate _ | .write _ _ | .close _ | .unlock _ | .destroy _ => true

/-- The turn of a call on the file of calls: it is loaded after the other one, and saved
after that one is saved. -/
def permitsCalls (s : BothState n) : SaveEvent n → Bool
  | .load p => s.jumps.phase p == .loaded
  | .openLock p => s.jumps.phase p == .finished
  | .kill _ => false
  | .lock _ | .truncate _ | .write _ _ | .close _ | .unlock _ | .destroy _ => true

end BothState

section Steps

variable {n : Nat} (jumpOrder callOrder : Fin n → TargetOrder)

/-- One step; `none` when it is not due or a lock is taken. -/
def bothStep (s : BothState n) : BothEvent n → Option (BothState n)
  | .jumps event =>
      if s.permitsJumps event then
        match saveStep jumpOrder s.jumps event with
        | some jumps => some ⟨jumps, s.calls⟩
        | none => none
      else none
  | .calls event =>
      if s.permitsCalls event then
        match saveStep callOrder s.calls event with
        | some calls => some ⟨s.jumps, calls⟩
        | none => none
      else none
  | .kill p =>
      -- what the process has finished on the first file stays finished
      if s.ended p then none
      else
        some ⟨(saveStep jumpOrder s.jumps (.kill p)).getD s.jumps,
          (saveStep callOrder s.calls (.kill p)).getD s.calls⟩

/-- The steps of a schedule; `none` when one of them is not permitted. -/
def bothRun : BothState n → List (BothEvent n) → Option (BothState n)
  | s, [] => some s
  | s, event :: schedule =>
      match bothStep jumpOrder callOrder s event with
      | some s' => bothRun s' schedule
      | none => none

end Steps

/-! ## A process has a bounded number of calls to make -/

/-- How many steps a process has to make after its load, at most, when its document has
this length. -/
def SavePhase.remaining (length : Nat) : SavePhase → Nat
  | .loaded => length + 6
  | .opened => length + 5
  | .locked => length + 4
  | .writing count => length - count + 3
  | .closed => 2
  | .unlocked => 1
  | .loading | .finished | .killed | .aborted => 0

namespace SaveState

variable {n : Nat}

/-- The processes that have not loaded the file. -/
def loads (s : SaveState n) : Finset (Fin n) := {p | s.phase p = .loading}

/-- The steps that the other processes have to make. -/
def remaining (order : Fin n → TargetOrder) (s : SaveState n) : Nat :=
  ∑ p, (s.phase p).remaining (s.document order p).length

/-- Fewer processes have to load the file, or as many, and the others have fewer steps to
make. -/
def Descends (order : Fin n → TargetOrder) (s' s : SaveState n) : Prop :=
  s'.loads.card < s.loads.card ∨
    s'.loads.card ≤ s.loads.card ∧ s'.remaining order < s.remaining order

variable {order : Fin n → TargetOrder} {s : SaveState n} {p : Fin n} {phase : SavePhase}

theorem mem_loads {q : Fin n} : q ∈ s.loads ↔ s.phase q = .loading := by
  rw [loads, Finset.mem_filter_univ]

theorem mem_loads_enter (hphase : phase ≠ .loading) {q : Fin n} :
    q ∈ (s.enter p phase).loads ↔ q ≠ p ∧ q ∈ s.loads := by
  rw [mem_loads, mem_loads]
  by_cases hqp : q = p
  · rw [hqp, s.enter_phase_self]
    exact iff_of_false hphase fun h => h.1 rfl
  · rw [s.enter_phase_of_ne hqp]
    exact (and_iff_right hqp).symm

theorem loads_enter_subset (hphase : phase ≠ .loading) : (s.enter p phase).loads ⊆ s.loads :=
  fun _ hq => ((mem_loads_enter hphase).mp hq).2

/-- The load of a process, whatever comes of it. -/
theorem descends_of_loading (hloading : s.phase p = .loading) (hphase : phase ≠ .loading)
    {s' : SaveState n} (hs' : s'.phase = s.phase) : (s'.enter p phase).Descends order s := by
  left
  apply Finset.card_lt_card
  have heq : s'.loads = s.loads := by
    ext q
    rw [mem_loads, mem_loads, hs']
  rw [← heq, Finset.ssubset_iff_of_subset (loads_enter_subset hphase)]
  refine ⟨p, ?_, fun h => ((mem_loads_enter hphase).mp h).1 rfl⟩
  rw [mem_loads, hs', hloading]

theorem remaining_enter_lt
    (h : phase.remaining (s.document order p).length <
      (s.phase p).remaining (s.document order p).length) :
    (s.enter p phase).remaining order < s.remaining order := by
  unfold remaining
  apply Finset.sum_lt_sum
  · intro q _
    by_cases hqp : q = p
    · rw [hqp, s.enter_phase_self]
      exact Nat.le_of_lt h
    · rw [s.enter_phase_of_ne hqp]
      exact Nat.le_refl _
  · refine ⟨p, Finset.mem_univ p, ?_⟩
    rw [s.enter_phase_self]
    exact h

/-- A call of a process that has loaded the file. -/
theorem descends_of_remaining {before : SavePhase} (hbefore : s.phase p = before)
    (hphase : phase ≠ .loading)
    (h : phase.remaining (s.document order p).length <
      before.remaining (s.document order p).length) :
    (s.enter p phase).Descends order s := by
  rw [← hbefore] at h
  exact Or.inr ⟨Finset.card_le_card (loads_enter_subset hphase), remaining_enter_lt h⟩

/-- The end of a process. -/
theorem descends_kill (halive : (s.phase p).alive = true) :
    (s.enter p .killed).Descends order s := by
  cases hphase : s.phase p with
  | loading => exact descends_of_loading hphase (by nofun) rfl
  | finished | killed | aborted =>
      rw [hphase] at halive
      cases halive
  | loaded | opened | locked | closed | unlocked =>
      refine descends_of_remaining hphase (by nofun) ?_
      simp only [SavePhase.remaining]
      omega
  | writing count =>
      refine descends_of_remaining hphase (by nofun) ?_
      simp only [SavePhase.remaining]
      omega

/-- Every step goes down. -/
theorem descends_step {s' : SaveState n} {event : SaveEvent n}
    (hstep : saveStep order s event = some s') : s'.Descends order s := by
  cases saveStep_move hstep with
  | load p merged hphase _ => exact descends_of_loading hphase (by nofun) rfl
  | abort p hphase => exact descends_of_loading hphase (by nofun) rfl
  | openLock p hphase =>
      change (s.enter p .opened).Descends order s
      refine descends_of_remaining hphase (by nofun) ?_
      simp only [SavePhase.remaining]
      omega
  | lock p hphase _ =>
      refine descends_of_remaining hphase (by nofun) ?_
      simp only [SavePhase.remaining]
      omega
  | truncate p hphase =>
      change (s.enter p (.writing 0)).Descends order s
      refine descends_of_remaining hphase (by nofun) ?_
      simp only [SavePhase.remaining]
      omega
  | write p count length hphase hlength hfits =>
      change (s.enter p (.writing (count + length))).Descends order s
      refine descends_of_remaining hphase (by nofun) ?_
      simp only [SavePhase.remaining]
      omega
  | close p hphase =>
      refine descends_of_remaining hphase (by nofun) ?_
      simp only [SavePhase.remaining]
      omega
  | unlock p hphase =>
      refine descends_of_remaining hphase (by nofun) ?_
      simp only [SavePhase.remaining]
      omega
  | destroy p hphase =>
      refine descends_of_remaining hphase (by nofun) ?_
      simp only [SavePhase.remaining]
      omega
  | kill p halive => exact descends_kill halive

end SaveState

/-! ## The holder of a lock is never held up -/

/-- The process has opened the file and not closed it. -/
def SavePhase.saving : SavePhase → Bool
  | .opened | .locked | .writing _ | .closed | .unlocked => true
  | .loading | .loaded | .finished | .killed | .aborted => false

/-- A call of `SaveEdgesAsJSON` after the first. -/
def SaveEvent.inside {n : Nat} : SaveEvent n → Bool
  | .lock _ | .truncate _ | .write _ _ | .close _ | .unlock _ | .destroy _ => true
  | .load _ | .openLock _ | .kill _ => false

namespace SaveState

variable {n : Nat}

/-- No process has written more than its document. -/
def Fits (order : Fin n → TargetOrder) (s : SaveState n) : Prop :=
  ∀ p count, s.phase p = .writing count → count ≤ (s.document order p).length

/-- A call of `SaveEdgesAsJSON` after the first can be made. -/
def Goes (order : Fin n → TargetOrder) (s : SaveState n) : Prop :=
  ∃ event s', event.inside = true ∧ saveStep order s event = some s'

variable {order : Fin n → TargetOrder} {s : SaveState n} {p : Fin n}

theorem Fits.enter {phase : SavePhase} (h : s.Fits order)
    (hphase : ∀ count, phase = .writing count → count ≤ (s.document order p).length) :
    (s.enter p phase).Fits order := by
  intro q count hq
  by_cases hqp : q = p
  · rw [hqp, s.enter_phase_self] at hq
    rw [hqp]
    exact hphase count hq
  · rw [s.enter_phase_of_ne hqp] at hq
    exact h q count hq

theorem Fits.step {s' : SaveState n} {event : SaveEvent n} (h : s.Fits order)
    (hstep : saveStep order s event = some s') : s'.Fits order := by
  cases saveStep_move hstep with
  | load p merged hphase _ =>
      have hloaded : SaveState.Fits order
          { s with edgeMap := Function.update s.edgeMap p merged } := by
        intro q count hq
        have hqp : q ≠ p := by
          rintro rfl
          rw [hphase] at hq
          cases hq
        simp only [SaveState.document, Function.update_of_ne hqp]
        exact h q count hq
      apply hloaded.enter
      intro other hother
      cases hother
  | write p count length hphase hlength hfits =>
      refine Fits.enter (s := s) h ?_
      intro other hother
      cases hother
      exact hfits
  | truncate p hphase =>
      refine Fits.enter (s := s) h ?_
      intro other hother
      cases hother
      exact Nat.zero_le _
  | openLock p hphase =>
      refine Fits.enter (s := s) h ?_
      intro other hother
      cases hother
  | abort p _ | lock p _ _ | close p _ | unlock p _ | destroy p _ | kill p _ =>
      apply h.enter
      intro other hother
      cases hother

theorem saveStep_write {count length : Nat} (hphase : s.phase p = .writing count)
    (hlength : 0 < length) (hfits : count + length ≤ (s.document order p).length) :
    saveStep order s (.write p length) =
      some ({ s with
          file := some (writeAt (s.file.getD []) count
            (((s.document order p).drop count).take length)) }.enter p
        (.writing (count + length))) := by
  simp only [saveStep, hphase]
  exact if_pos ⟨hlength, hfits⟩

/-- Whoever has the lock can go on. -/
theorem goes_of_holdsLock (h : s.Fits order) (hlock : (s.phase p).holdsLock = true) :
    s.Goes order := by
  cases hphase : s.phase p with
  | locked => exact ⟨.truncate p, _, rfl, if_pos hphase⟩
  | writing count =>
      rcases Nat.lt_or_eq_of_le (h p count hphase) with hlt | heq
      · exact ⟨.write p 1, _, rfl, saveStep_write hphase Nat.one_pos hlt⟩
      · refine ⟨.close p, _, rfl, if_pos ?_⟩
        rw [hphase, heq]
  | closed => exact ⟨.unlock p, _, rfl, if_pos hphase⟩
  | loading | loaded | opened | unlocked | finished | killed | aborted =>
      rw [hphase] at hlock
      cases hlock

/-- While a process saves, it or the holder of the lock can go on. -/
theorem goes_of_saving (h : s.Fits order) (hsaving : (s.phase p).saving = true) :
    s.Goes order := by
  cases hphase : s.phase p with
  | opened =>
      by_cases hfree : ∀ q, (s.phase q).holdsLock = false
      · exact ⟨.lock p, _, rfl, if_pos ⟨hphase, hfree⟩⟩
      · obtain ⟨q, hq⟩ := not_forall.mp hfree
        exact goes_of_holdsLock h (Bool.eq_true_of_not_eq_false hq)
  | unlocked => exact ⟨.destroy p, _, rfl, if_pos hphase⟩
  | locked | writing count | closed =>
      exact goes_of_holdsLock (p := p) h (by rw [hphase]; rfl)
  | loading | loaded | finished | killed | aborted =>
      rw [hphase] at hsaving
      cases hsaving

end SaveState

/-! ## What a call does to the phases -/

/-- Whose call it is. -/
def SaveEvent.process {n : Nat} : SaveEvent n → Fin n
  | .load p | .openLock p | .lock p | .truncate p | .write p _ | .close p | .unlock p
  | .destroy p | .kill p => p

/-- The phases of a process before and after one of its calls. -/
inductive PhaseMove {n : Nat} : SaveEvent n → SavePhase → SavePhase → Prop where
  | load (p : Fin n) {after : SavePhase} (hafter : after = .loaded ∨ after = .aborted) :
      PhaseMove (.load p) .loading after
  | openLock (p : Fin n) : PhaseMove (.openLock p) .loaded .opened
  | inside {event : SaveEvent n} {before after : SavePhase} (hevent : event.inside = true)
      (hbefore : before.saving = true) (hafter : after.saving = true ∨ after = .finished) :
      PhaseMove event before after
  | kill (p : Fin n) {before : SavePhase} (hbefore : before.alive = true) :
      PhaseMove (.kill p) before .killed

/-- A call moves its process and no other. -/
theorem phaseMove_of_step {n : Nat} {order : Fin n → TargetOrder} {s s' : SaveState n}
    {event : SaveEvent n} (hstep : saveStep order s event = some s') :
    ∃ after, PhaseMove event (s.phase event.process) after ∧
      s'.phase = Function.update s.phase event.process after := by
  cases saveStep_move hstep with
  | load p merged hphase _ =>
      refine ⟨.loaded, ?_, rfl⟩
      rw [SaveEvent.process, hphase]
      exact .load p (Or.inl rfl)
  | abort p hphase =>
      refine ⟨.aborted, ?_, rfl⟩
      rw [SaveEvent.process, hphase]
      exact .load p (Or.inr rfl)
  | openLock p hphase =>
      refine ⟨.opened, ?_, rfl⟩
      rw [SaveEvent.process, hphase]
      exact .openLock p
  | lock p hphase _ => exact ⟨_, .inside rfl (by rw [SaveEvent.process, hphase]; rfl) (Or.inl rfl), rfl⟩
  | truncate p hphase =>
      exact ⟨_, .inside rfl (by rw [SaveEvent.process, hphase]; rfl) (Or.inl rfl), rfl⟩
  | write p count length hphase _ _ =>
      exact ⟨_, .inside rfl (by rw [SaveEvent.process, hphase]; rfl) (Or.inl rfl), rfl⟩
  | close p hphase =>
      exact ⟨_, .inside rfl (by rw [SaveEvent.process, hphase]; rfl) (Or.inl rfl), rfl⟩
  | unlock p hphase =>
      exact ⟨_, .inside rfl (by rw [SaveEvent.process, hphase]; rfl) (Or.inl rfl), rfl⟩
  | destroy p hphase =>
      exact ⟨_, .inside rfl (by rw [SaveEvent.process, hphase]; rfl) (Or.inr rfl), rfl⟩
  | kill p halive => exact ⟨_, .kill p halive, rfl⟩

/-! ## The calls of a process are in order -/

/-- The file of jumps is saved only after that of calls is loaded, and a process is killed
at both files. -/
structure InOrder (jumps calls : SavePhase) : Prop where
  loading : calls = .loading → jumps = .loading ∨ jumps = .loaded ∨ jumps = .aborted
  killed : jumps = .killed → calls = .killed

namespace BothState

variable {n : Nat} {jumpOrder callOrder : Fin n → TargetOrder} {s s' : BothState n}

/-- What every reachable state satisfies. -/
structure Sound (jumpOrder callOrder : Fin n → TargetOrder) (s : BothState n) : Prop where
  jumps : s.jumps.Fits jumpOrder
  calls : s.calls.Fits callOrder
  inOrder : ∀ p, InOrder (s.jumps.phase p) (s.calls.phase p)

theorem sound_start (jumpFile callFile : Option (List Char))
    (observedJumps observedCalls : Fin n → EdgeMap) :
    (start jumpFile callFile observedJumps observedCalls).Sound jumpOrder callOrder where
  jumps := nofun
  calls := nofun
  inOrder := fun _ => ⟨fun _ => Or.inl rfl, nofun⟩

/-- What a permitted step does. -/
inductive BothMove (jumpOrder callOrder : Fin n → TargetOrder) (s : BothState n) :
    BothEvent n → BothState n → Prop where
  | jumps (event : SaveEvent n) (jumps : SaveState n) (hturn : s.permitsJumps event = true)
      (hstep : saveStep jumpOrder s.jumps event = some jumps) :
      BothMove jumpOrder callOrder s (.jumps event) ⟨jumps, s.calls⟩
  | calls (event : SaveEvent n) (calls : SaveState n) (hturn : s.permitsCalls event = true)
      (hstep : saveStep callOrder s.calls event = some calls) :
      BothMove jumpOrder callOrder s (.calls event) ⟨s.jumps, calls⟩
  /-- the process has saved the jumps -/
  | killLater (p : Fin n) (halive : (s.calls.phase p).alive = true)
      (hjumps : (s.jumps.phase p).alive = false) (haborted : s.jumps.phase p ≠ .aborted) :
      BothMove jumpOrder callOrder s (.kill p) ⟨s.jumps, s.calls.enter p .killed⟩
  | kill (p : Fin n) (halive : (s.calls.phase p).alive = true)
      (hjumps : (s.jumps.phase p).alive = true) :
      BothMove jumpOrder callOrder s (.kill p)
        ⟨s.jumps.enter p .killed, s.calls.enter p .killed⟩

theorem ended_eq_false_iff {p : Fin n} :
    s.ended p = false ↔ s.jumps.phase p ≠ .aborted ∧ (s.calls.phase p).alive = true := by
  simp [ended]

theorem bothStep_move {event : BothEvent n}
    (hstep : bothStep jumpOrder callOrder s event = some s') :
    BothMove jumpOrder callOrder s event s' := by
  cases event with
  | jumps event =>
      rw [bothStep] at hstep
      split at hstep
      · rename_i hturn
        split at hstep
        · rename_i jumps hjumps
          cases hstep
          exact .jumps event jumps hturn hjumps
        · cases hstep
      · cases hstep
  | calls event =>
      rw [bothStep] at hstep
      split at hstep
      · rename_i hturn
        split at hstep
        · rename_i calls hcalls
          cases hstep
          exact .calls event calls hturn hcalls
        · cases hstep
      · cases hstep
  | kill p =>
      rw [bothStep] at hstep
      split at hstep
      · cases hstep
      · rename_i hended
        obtain ⟨haborted, halive⟩ := ended_eq_false_iff.mp (Bool.eq_false_of_not_eq_true hended)
        have hcalls : saveStep callOrder s.calls (.kill p) = some (s.calls.enter p .killed) :=
          if_pos halive
        rw [hcalls] at hstep
        by_cases hjumps : (s.jumps.phase p).alive = true
        · have hkill : saveStep jumpOrder s.jumps (.kill p) = some (s.jumps.enter p .killed) :=
            if_pos hjumps
          rw [hkill] at hstep
          cases hstep
          exact .kill p halive hjumps
        · have hkill : saveStep jumpOrder s.jumps (.kill p) = none := if_neg hjumps
          rw [hkill] at hstep
          cases hstep
          exact .killLater p halive (Bool.eq_false_of_not_eq_true hjumps) haborted

/-! ## The invariant -/

/-- A call on the file of jumps, in its turn, leaves the process in order. -/
theorem inOrder_jumps {event : SaveEvent n} {after : SavePhase}
    (hturn : s.permitsJumps event = true)
    (hmove : PhaseMove event (s.jumps.phase event.process) after)
    (h : InOrder (s.jumps.phase event.process) (s.calls.phase event.process)) :
    InOrder after (s.calls.phase event.process) := by
  generalize hbefore : s.jumps.phase event.process = before at hmove h
  cases hmove with
  | load p hafter =>
      rcases hafter with rfl | rfl
      · exact ⟨fun _ => Or.inr (Or.inl rfl), nofun⟩
      · exact ⟨fun _ => Or.inr (Or.inr rfl), nofun⟩
  | openLock p =>
      have hcalls : s.calls.phase p = .loaded := beq_iff_eq.mp hturn
      refine ⟨fun hloading => ?_, nofun⟩
      rw [SaveEvent.process, hcalls] at hloading
      cases hloading
  | inside _ hsaving hafter =>
      constructor
      · intro hloading
        rcases h.loading hloading with rfl | rfl | rfl <;> cases hsaving
      · rintro rfl
        rcases hafter with hafter | hafter <;> cases hafter
  | kill p _ => cases hturn

/-- A call on the file of calls, in its turn, leaves the process in order. -/
theorem inOrder_calls {event : SaveEvent n} {after : SavePhase}
    (hturn : s.permitsCalls event = true)
    (hmove : PhaseMove event (s.calls.phase event.process) after)
    (h : InOrder (s.jumps.phase event.process) (s.calls.phase event.process)) :
    InOrder (s.jumps.phase event.process) after := by
  generalize hbefore : s.calls.phase event.process = before at hmove h
  cases hmove with
  | load p hafter =>
      have hjumps : s.jumps.phase p = .loaded := beq_iff_eq.mp hturn
      rw [SaveEvent.process, hjumps]
      exact ⟨fun _ => Or.inr (Or.inl rfl), nofun⟩
  | openLock p =>
      have hjumps : s.jumps.phase p = .finished := beq_iff_eq.mp hturn
      rw [SaveEvent.process, hjumps]
      exact ⟨nofun, nofun⟩
  | inside _ hsaving hafter =>
      constructor
      · rintro rfl
        rcases hafter with hafter | hafter <;> cases hafter
      · intro hkilled
        rw [h.killed hkilled] at hsaving
        cases hsaving
  | kill p _ => cases hturn

theorem Sound.step {event : BothEvent n} (h : s.Sound jumpOrder callOrder)
    (hstep : bothStep jumpOrder callOrder s event = some s') : s'.Sound jumpOrder callOrder := by
  cases bothStep_move hstep with
  | jumps event jumps hturn hjumps =>
      obtain ⟨after, hmove, hphase⟩ := phaseMove_of_step hjumps
      refine ⟨h.jumps.step hjumps, h.calls, fun q => ?_⟩
      simp only [hphase]
      by_cases hq : q = event.process
      · subst hq
        rw [Function.update_self]
        exact inOrder_jumps hturn hmove (h.inOrder _)
      · rw [Function.update_of_ne hq]
        exact h.inOrder q
  | calls event calls hturn hcalls =>
      obtain ⟨after, hmove, hphase⟩ := phaseMove_of_step hcalls
      refine ⟨h.jumps, h.calls.step hcalls, fun q => ?_⟩
      simp only [hphase]
      by_cases hq : q = event.process
      · subst hq
        rw [Function.update_self]
        exact inOrder_calls hturn hmove (h.inOrder _)
      · rw [Function.update_of_ne hq]
        exact h.inOrder q
  | killLater p _ hjumps haborted =>
      refine ⟨h.jumps, h.calls.enter (by nofun), fun q => ?_⟩
      by_cases hq : q = p
      · subst hq
        rw [SaveState.enter_phase_self]
        exact ⟨nofun, fun _ => rfl⟩
      · rw [s.calls.enter_phase_of_ne hq]
        exact h.inOrder q
  | kill p _ _ =>
      refine ⟨h.jumps.enter (by nofun), h.calls.enter (by nofun), fun q => ?_⟩
      by_cases hq : q = p
      · subst hq
        rw [SaveState.enter_phase_self, SaveState.enter_phase_self]
        exact ⟨nofun, fun _ => rfl⟩
      · rw [s.jumps.enter_phase_of_ne hq, s.calls.enter_phase_of_ne hq]
        exact h.inOrder q

theorem Sound.run (schedule : List (BothEvent n)) : ∀ {s s' : BothState n},
    s.Sound jumpOrder callOrder → bothRun jumpOrder callOrder s schedule = some s' →
      s'.Sound jumpOrder callOrder := by
  induction schedule with
  | nil =>
      intro s s' h hrun
      cases hrun
      exact h
  | cons event schedule ih =>
      intro s s' h hrun
      rw [bothRun] at hrun
      split at hrun
      · rename_i middle hstep
        exact ih (h.step hstep) hrun
      · cases hrun

/-! ## No schedule is stuck -/

/-- Some process can make a call. -/
def Goes (jumpOrder callOrder : Fin n → TargetOrder) (s : BothState n) : Prop :=
  ∃ event s', event.isKill = false ∧ bothStep jumpOrder callOrder s event = some s'

theorem goes_of_jumps (event : SaveEvent n) {jumps : SaveState n}
    (hturn : s.permitsJumps event = true)
    (hstep : saveStep jumpOrder s.jumps event = some jumps) : s.Goes jumpOrder callOrder := by
  refine ⟨.jumps event, ⟨jumps, s.calls⟩, rfl, ?_⟩
  rw [bothStep, if_pos hturn, hstep]

theorem goes_of_calls (event : SaveEvent n) {calls : SaveState n}
    (hturn : s.permitsCalls event = true)
    (hstep : saveStep callOrder s.calls event = some calls) : s.Goes jumpOrder callOrder := by
  refine ⟨.calls event, ⟨s.jumps, calls⟩, rfl, ?_⟩
  rw [bothStep, if_pos hturn, hstep]

/-- After the first call of a save it is always the turn of the next. -/
theorem permits_of_inside {event : SaveEvent n} (h : event.inside = true) :
    s.permitsJumps event = true ∧ s.permitsCalls event = true := by
  cases event with
  | lock p | truncate p | write p length | close p | unlock p | destroy p => exact ⟨rfl, rfl⟩
  | load p | openLock p | kill p => cases h

/-- A load is made whatever it gives. -/
theorem exists_load (order : Fin n → TargetOrder) {t : SaveState n} {p : Fin n}
    (hphase : t.phase p = .loading) : ∃ t', saveStep order t (.load p) = some t' := by
  rw [saveStep, if_pos hphase]
  cases loadEdgesFromJSON t.file (t.edgeMap p) with
  | ok merged => exact ⟨_, rfl⟩
  | error fault => exact ⟨_, rfl⟩

/-- As long as a process has not come to its end, there is a call to be made. -/
theorem Sound.goes (h : s.Sound jumpOrder callOrder) {p : Fin n} (hended : s.ended p = false) :
    s.Goes jumpOrder callOrder := by
  obtain ⟨haborted, halive⟩ := ended_eq_false_iff.mp hended
  by_cases hjumps : (s.jumps.phase p).saving = true
  · obtain ⟨event, jumps, hinside, hstep⟩ := SaveState.goes_of_saving h.jumps hjumps
    exact goes_of_jumps event (permits_of_inside hinside).1 hstep
  by_cases hcalls : (s.calls.phase p).saving = true
  · obtain ⟨event, calls, hinside, hstep⟩ := SaveState.goes_of_saving h.calls hcalls
    exact goes_of_calls event (permits_of_inside hinside).2 hstep
  cases hphase : s.jumps.phase p with
  | loading =>
      obtain ⟨jumps, hstep⟩ := exists_load jumpOrder hphase
      exact goes_of_jumps (.load p) rfl hstep
  | loaded =>
      cases hother : s.calls.phase p with
      | loading =>
          obtain ⟨calls, hstep⟩ := exists_load callOrder hother
          exact goes_of_calls (.load p) (beq_iff_eq.mpr hphase) hstep
      | loaded => exact goes_of_jumps (.openLock p) (beq_iff_eq.mpr hother) (if_pos hphase)
      | opened | locked | writing count | closed | unlocked =>
          rw [hother] at hcalls
          exact absurd rfl hcalls
      | finished | killed | aborted =>
          rw [hother] at halive
          cases halive
  | finished =>
      cases hother : s.calls.phase p with
      | loading =>
          rcases (h.inOrder p).loading hother with hbefore | hbefore | hbefore <;>
            (rw [hphase] at hbefore; cases hbefore)
      | loaded => exact goes_of_calls (.openLock p) (beq_iff_eq.mpr hphase) (if_pos hother)
      | opened | locked | writing count | closed | unlocked =>
          rw [hother] at hcalls
          exact absurd rfl hcalls
      | finished | killed | aborted =>
          rw [hother] at halive
          cases halive
  | opened | locked | writing count | closed | unlocked =>
      rw [hphase] at hjumps
      exact absurd rfl hjumps
  | killed =>
      rw [(h.inOrder p).killed hphase] at halive
      cases halive
  | aborted => exact absurd hphase haborted

/-! ## No schedule goes on forever -/

/-- How many loads are to be made, and how many other steps. -/
def rank (jumpOrder callOrder : Fin n → TargetOrder) (s : BothState n) : Nat × Nat :=
  (s.jumps.loads.card + s.calls.loads.card,
    s.jumps.remaining jumpOrder + s.calls.remaining callOrder)

theorem rank_lt {event : BothEvent n} (hstep : bothStep jumpOrder callOrder s event = some s') :
    Prod.Lex (· < ·) (· < ·) (s'.rank jumpOrder callOrder) (s.rank jumpOrder callOrder) := by
  rw [Prod.lex_iff]
  simp only [rank]
  cases bothStep_move hstep with
  | jumps event jumps _ hjumps =>
      have hdescends := SaveState.descends_step hjumps
      unfold SaveState.Descends at hdescends
      dsimp only
      omega
  | calls event calls _ hcalls =>
      have hdescends := SaveState.descends_step hcalls
      unfold SaveState.Descends at hdescends
      dsimp only
      omega
  | killLater p halive _ _ =>
      have hdescends : (s.calls.enter p .killed).Descends callOrder s.calls :=
        SaveState.descends_kill halive
      unfold SaveState.Descends at hdescends
      dsimp only
      omega
  | kill p halive hjumps =>
      have hdescends : (s.calls.enter p .killed).Descends callOrder s.calls :=
        SaveState.descends_kill halive
      have hdescends' : (s.jumps.enter p .killed).Descends jumpOrder s.jumps :=
        SaveState.descends_kill hjumps
      unfold SaveState.Descends at hdescends hdescends'
      dsimp only
      omega

end BothState

/-- Whatever the files hold and the processes have observed, whatever is killed and however
the calls are ordered, the schedule comes to an end, and when it can go no further without
a kill every process has come to its own. -/
theorem fini_ends {n : Nat} (jumpOrder callOrder : Fin n → TargetOrder)
    (jumpFile callFile : Option (List Char)) (observedJumps observedCalls : Fin n → EdgeMap) :
    (WellFounded fun s' s : BothState n =>
        ∃ event, bothStep jumpOrder callOrder s event = some s') ∧
      ∀ schedule final,
        bothRun jumpOrder callOrder (.start jumpFile callFile observedJumps observedCalls)
            schedule = some final →
          (∀ event, event.isKill = false → bothStep jumpOrder callOrder final event = none) →
            ∀ p, final.ended p = true := by
  constructor
  · refine Subrelation.wf ?_ (InvImage.wf (BothState.rank jumpOrder callOrder)
      (WellFounded.prod_lex Nat.lt_wfRel.wf Nat.lt_wfRel.wf))
    rintro s' s ⟨event, hstep⟩
    exact BothState.rank_lt hstep
  · intro schedule final hrun hstuck p
    have hsound := BothState.Sound.run schedule
      (BothState.sound_start jumpFile callFile observedJumps observedCalls) hrun
    by_contra hended
    obtain ⟨event, s', hkill, hstep⟩ := hsound.goes (Bool.eq_false_of_not_eq_true hended)
    rw [hstuck event hkill] at hstep
    cases hstep

end Icflow.PinTool
