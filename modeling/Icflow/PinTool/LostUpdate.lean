import Icflow.Foundation.LoadMergeStore
import Icflow.PinTool.ResultFile

set_option autoImplicit false

/-!
# `Fini` of several processes on one result file

The load and the rewrite of each process are single steps here, and the load is
outside the lock, as in `Fini`.  The model refines the load-merge-store protocol over
sets of edges (`refines_step`), with two things the protocol does not have: taking the
lock creates the file, and a process that loads the empty file of another one dies of
the parse error.
-/

namespace Icflow.PinTool

open Icflow.Foundation
open Icflow.Foundation.LoadMergeStore (Event Phase Serial carried)

/-- Where a process is in `Fini`. -/
inductive FiniPhase where
  | loading
  | loaded
  | locked
  | rewritten
  | finished
  /-- `LoadEdgesFromJSON` threw. -/
  | aborted
  deriving DecidableEq, Repr

/-- The result file, and the edge map and the phase of each process. -/
structure FiniState (n : Nat) where
  file : Option (List Char)
  edgeMap : Fin n → EdgeMap
  phase : Fin n → FiniPhase

/-- The processes hold what they observed. -/
def FiniState.start {n : Nat} (file : Option (List Char)) (observed : Fin n → EdgeMap) :
    FiniState n where
  file := file
  edgeMap := observed
  phase := fun _ => .loading

/-- The process has the lock. -/
def FiniPhase.holdsLock : FiniPhase → Bool
  | .locked | .rewritten => true
  | .loading | .loaded | .finished | .aborted => false

/-- One step of `Fini`; `none` when the step is not due or the lock is taken.  The
constructor of `FileLock` opens the path with `O_CREAT`. -/
def finiStep {n : Nat} (order : Fin n → TargetOrder) (s : FiniState n) :
    Event (Fin n) → Option (FiniState n)
  | .load p =>
      if s.phase p = .loading then
        match loadEdgesFromJSON s.file (s.edgeMap p) with
        | .ok merged =>
            some { s with
              edgeMap := Function.update s.edgeMap p merged
              phase := Function.update s.phase p .loaded }
        | .error _ => some { s with phase := Function.update s.phase p .aborted }
      else none
  | .acquire p =>
      if s.phase p = .loaded ∧ ∀ q, (s.phase q).holdsLock = false then
        some { s with
          file := some (s.file.getD [])
          phase := Function.update s.phase p .locked }
      else none
  | .store p =>
      if s.phase p = .locked then
        some { s with
          file := some (edgesText (order p) (s.edgeMap p))
          phase := Function.update s.phase p .rewritten }
      else none
  | .release p =>
      if s.phase p = .rewritten then
        some { s with phase := Function.update s.phase p .finished }
      else none

/-- What a step is when it is permitted. -/
inductive FiniMove {n : Nat} (order : Fin n → TargetOrder) (s : FiniState n) :
    Event (Fin n) → FiniState n → Prop where
  | load (p : Fin n) {merged : EdgeMap} (hphase : s.phase p = .loading)
      (hload : loadEdgesFromJSON s.file (s.edgeMap p) = .ok merged) :
      FiniMove order s (.load p)
        { s with
          edgeMap := Function.update s.edgeMap p merged
          phase := Function.update s.phase p .loaded }
  | abort (p : Fin n) (hphase : s.phase p = .loading) :
      FiniMove order s (.load p) { s with phase := Function.update s.phase p .aborted }
  | acquire (p : Fin n) (hphase : s.phase p = .loaded)
      (hfree : ∀ q, (s.phase q).holdsLock = false) :
      FiniMove order s (.acquire p)
        { s with
          file := some (s.file.getD [])
          phase := Function.update s.phase p .locked }
  | store (p : Fin n) (hphase : s.phase p = .locked) :
      FiniMove order s (.store p)
        { s with
          file := some (edgesText (order p) (s.edgeMap p))
          phase := Function.update s.phase p .rewritten }
  | release (p : Fin n) (hphase : s.phase p = .rewritten) :
      FiniMove order s (.release p) { s with phase := Function.update s.phase p .finished }

theorem finiStep_move {n : Nat} {order : Fin n → TargetOrder} {s s' : FiniState n}
    {event : Event (Fin n)} (hstep : finiStep order s event = some s') :
    FiniMove order s event s' := by
  cases event with
  | load p =>
      rw [finiStep] at hstep
      split at hstep
      · rename_i hphase
        split at hstep
        · rename_i merged hload
          cases hstep
          exact .load p hphase hload
        · cases hstep
          exact .abort p hphase
      · cases hstep
  | acquire p =>
      rw [finiStep] at hstep
      split at hstep
      · rename_i hguard
        cases hstep
        exact .acquire p hguard.1 hguard.2
      · cases hstep
  | store p =>
      rw [finiStep] at hstep
      split at hstep
      · rename_i hphase
        cases hstep
        exact .store p hphase
      · cases hstep
  | release p =>
      rw [finiStep] at hstep
      split at hstep
      · rename_i hphase
        cases hstep
        exact .release p hphase
      · cases hstep

/-- The steps of a schedule; `none` when one of them is not permitted. -/
def finiRun {n : Nat} (order : Fin n → TargetOrder) :
    FiniState n → List (Event (Fin n)) → Option (FiniState n)
  | s, [] => some s
  | s, event :: schedule =>
      match finiStep order s event with
      | some s' => finiRun order s' schedule
      | none => none

/-! ## The protocol it refines -/

/-- A set of edges for each process and one for the file. -/
abbrev EdgeProtocol (n : Nat) := LoadMergeStore.State (Fin n) (Finset (ADDRINT × ADDRINT))

/-- The phase of the model that corresponds to a phase of the protocol. -/
def finiPhase : Phase → FiniPhase
  | .loading => .loading
  | .loaded => .loaded
  | .locked => .locked
  | .stored => .rewritten
  | .released => .finished

theorem finiPhase_injective : Function.Injective finiPhase := by
  intro a b h
  cases a <;> cases b <;> first | rfl | cases h

/-- The file decodes to the shared set, unless it was just created. -/
structure Refines {n : Nat} (s : FiniState n) (a : EdgeProtocol n) : Prop where
  phase : ∀ p, s.phase p = finiPhase (a.phase p)
  own : ∀ p, (s.edgeMap p).edges = a.own p
  shared : (∃ decoded, loadEdgesFromJSON s.file .empty = .ok decoded ∧ decoded.edges = a.shared) ∨
    (s.file = some [] ∧ ∃ p, a.phase p = .locked)

theorem refines_start {n : Nat} {file : Option (List Char)} {initial : EdgeMap}
    (hvalid : loadEdgesFromJSON file .empty = .ok initial) (observed : Fin n → EdgeMap) :
    Refines (FiniState.start file observed)
      (LoadMergeStore.State.initial initial.edges fun p => (observed p).edges) where
  phase := fun _ => rfl
  own := fun _ => rfl
  shared := Or.inl ⟨initial, hvalid, rfl⟩

/-- An empty file is no JSON document. -/
theorem loadEdges_nil (edgeMap : EdgeMap) :
    loadEdgesFromJSON (some []) edgeMap = .error .parseError := rfl

section Refinement

variable {n : Nat} {order : Fin n → TargetOrder} {s s' : FiniState n} {a : EdgeProtocol n}

namespace Refines

variable (h : Refines s a) {p : Fin n}

include h

theorem phase_iff {phase : Phase} : s.phase p = finiPhase phase ↔ a.phase p = phase := by
  rw [h.phase p]
  exact finiPhase_injective.eq_iff

/-- The phases move together. -/
theorem move (p : Fin n) (phase : Phase) (q : Fin n) :
    Function.update s.phase p (finiPhase phase) q =
      finiPhase (Function.update a.phase p phase q) := by
  by_cases hqp : q = p
  · subst hqp
    simp
  · simp [Function.update_of_ne hqp, h.phase q]

/-- A file that was only just created cannot be loaded. -/
theorem load {merged : EdgeMap} (hload : loadEdgesFromJSON s.file (s.edgeMap p) = .ok merged) :
    Refines
      { s with
        edgeMap := Function.update s.edgeMap p merged
        phase := Function.update s.phase p .loaded }
      { a with
        own := Function.update a.own p (a.own p ⊔ a.shared)
        phase := Function.update a.phase p .loaded } := by
  rcases h.shared with ⟨decoded, hdecoded, hshared⟩ | ⟨hfile, _⟩
  · refine ⟨h.move p .loaded, fun q => ?_, Or.inl ⟨decoded, hdecoded, hshared⟩⟩
    by_cases hqp : q = p
    · subst hqp
      simp only [Function.update_self]
      obtain ⟨merged', hmerged', hedges⟩ := loadEdges_merges hdecoded (s.edgeMap q)
      rw [hload] at hmerged'
      cases hmerged'
      rw [hedges, h.own, hshared]
      rfl
    · simp only [Function.update_of_ne hqp]
      exact h.own q
  · rw [hfile, loadEdges_nil] at hload
    cases hload

/-- Taking the lock creates the file. -/
theorem acquire (hfree : ∀ q, ¬ (a.phase q).Holds) :
    Refines
      { s with
        file := some (s.file.getD [])
        phase := Function.update s.phase p .locked }
      { a with phase := Function.update a.phase p .locked } := by
  refine ⟨h.move p .locked, h.own, ?_⟩
  cases hfile : s.file with
  | none => exact Or.inr ⟨rfl, p, Function.update_self ..⟩
  | some text =>
      rcases h.shared with hdecoded | ⟨_, q, hq⟩
      · rw [hfile] at hdecoded
        exact Or.inl hdecoded
      · exact absurd (Or.inl hq) (hfree q)

theorem store :
    Refines
      { s with
        file := some (edgesText (order p) (s.edgeMap p))
        phase := Function.update s.phase p .rewritten }
      { a with shared := a.own p, phase := Function.update a.phase p .stored } :=
  ⟨h.move p .stored, h.own,
    Or.inl ⟨s.edgeMap p, loadEdges_edgesText_empty (order p) (s.edgeMap p), h.own p⟩⟩

theorem release (hstored : a.phase p = .stored) :
    Refines { s with phase := Function.update s.phase p .finished }
      { a with phase := Function.update a.phase p .released } := by
  refine ⟨h.move p .released, h.own, ?_⟩
  rcases h.shared with hdecoded | ⟨hfile, q, hq⟩
  · exact Or.inl hdecoded
  · refine Or.inr ⟨hfile, q, ?_⟩
    have hqp : q ≠ p := by
      rintro rfl
      rw [hstored] at hq
      cases hq
    simp only [Function.update_of_ne hqp]
    exact hq

end Refines

/-- Each step is one of the protocol, unless it kills a process. -/
theorem refines_step (h : Refines s a) {event : Event (Fin n)}
    (hstep : finiStep order s event = some s') :
    (∃ p, s'.phase p = .aborted) ∨
      ∃ a', LoadMergeStore.Step a event a' ∧ Refines s' a' := by
  cases finiStep_move hstep with
  | load p hphase hload => exact Or.inr ⟨_, .load p (h.phase_iff.mp hphase), h.load hload⟩
  | abort p hphase => exact Or.inl ⟨p, Function.update_self ..⟩
  | acquire p hphase hfree =>
      have hfree' : ∀ q, ¬ (a.phase q).Holds := by
        intro q hq
        have hlock := hfree q
        rw [h.phase q] at hlock
        rcases hq with hq | hq <;> rw [hq] at hlock <;> cases hlock
      exact Or.inr ⟨_, .acquire p (h.phase_iff.mp hphase) hfree', h.acquire hfree'⟩
  | store p hphase => exact Or.inr ⟨_, .store p (h.phase_iff.mp hphase), h.store⟩
  | release p hphase =>
      have hstored : a.phase p = .stored := h.phase_iff.mp hphase
      exact Or.inr ⟨_, .release p hstored, h.release hstored⟩

/-- A dead process takes no further step. -/
theorem finiStep_aborted {event : Event (Fin n)} (hstep : finiStep order s event = some s')
    {p : Fin n} (hp : s.phase p = .aborted) : s'.phase p = .aborted := by
  have hkept : ∀ q phase, s.phase q ≠ .aborted → Function.update s.phase q phase p = .aborted := by
    intro q phase hq
    have hpq : p ≠ q := by
      rintro rfl
      exact hq hp
    rw [Function.update_of_ne hpq, hp]
  cases finiStep_move hstep with
  | load q hphase hload => exact hkept q .loaded (by simp [hphase])
  | abort q hphase => exact hkept q .aborted (by simp [hphase])
  | acquire q hphase hfree => exact hkept q .locked (by simp [hphase])
  | store q hphase => exact hkept q .rewritten (by simp [hphase])
  | release q hphase => exact hkept q .finished (by simp [hphase])

end Refinement

theorem finiRun_aborted {n : Nat} {order : Fin n → TargetOrder} {p : Fin n}
    (schedule : List (Event (Fin n))) : ∀ {s final : FiniState n},
      finiRun order s schedule = some final → s.phase p = .aborted →
      final.phase p = .aborted := by
  induction schedule with
  | nil =>
      intro s final hrun hp
      cases hrun
      exact hp
  | cons event schedule ih =>
      intro s final hrun hp
      unfold finiRun at hrun
      split at hrun
      · rename_i s' hstep
        exact ih hrun (finiStep_aborted hstep hp)
      · cases hrun

/-- A run in which every process finishes is a run of the protocol. -/
theorem refines_run {n : Nat} {order : Fin n → TargetOrder} (schedule : List (Event (Fin n))) :
    ∀ {s final : FiniState n} {a : EdgeProtocol n}, Refines s a →
      finiRun order s schedule = some final → (∀ p, final.phase p = .finished) →
      ∃ a', LoadMergeStore.Run a schedule a' ∧ Refines final a' := by
  induction schedule with
  | nil =>
      intro s final a h hrun _
      cases hrun
      exact ⟨a, .nil a, h⟩
  | cons event schedule ih =>
      intro s final a h hrun hdone
      unfold finiRun at hrun
      split at hrun
      · rename_i s' hstep
        rcases refines_step h hstep with ⟨p, hp⟩ | ⟨a', hstep', h'⟩
        · have hfinal := finiRun_aborted schedule hrun hp
          rw [hdone p] at hfinal
          cases hfinal
        · obtain ⟨a'', hrun', h''⟩ := ih h' hrun hdone
          exact ⟨a'', .cons hstep' hrun', h''⟩
      · cases hrun

/-! ## Lost updates -/

/-- The file decodes to the initial edges and everything the processes observed. -/
def FiniState.Complete {n : Nat} (final : FiniState n) (initial : EdgeMap)
    (observed : Fin n → EdgeMap) : Prop :=
  ∃ decoded, loadEdgesFromJSON final.file .empty = .ok decoded ∧
    ∀ edge, edge ∈ decoded.edges ↔
      edge ∈ initial.edges ∨ ∃ p, edge ∈ (observed p).edges

/-- When every process has finished, the file holds the initial edges and those of the
processes the schedule carries. -/
theorem finiRun_file {n : Nat} {order : Fin n → TargetOrder} {file : Option (List Char)}
    {initial : EdgeMap} (hvalid : loadEdgesFromJSON file .empty = .ok initial)
    {observed : Fin n → EdgeMap} {schedule : List (Event (Fin n))} {final : FiniState n}
    (hrun : finiRun order (.start file observed) schedule = some final)
    (hdone : ∀ p, final.phase p = .finished) :
    (∃ decoded, loadEdgesFromJSON final.file .empty = .ok decoded ∧
      decoded.edges = initial.edges ⊔ (carried schedule).sup fun p => (observed p).edges) ∧
      ((∀ p, p ∈ carried schedule) ↔ Serial schedule) := by
  obtain ⟨a, hprotocol, hrefines⟩ :=
    refines_run schedule (refines_start hvalid observed) hrun hdone
  have hreleased : ∀ p, a.phase p = .released := by
    intro p
    exact finiPhase_injective ((hrefines.phase p).symm.trans (hdone p))
  refine ⟨?_, LoadMergeStore.carried_all_iff_serial hprotocol fun p => Or.inr (hreleased p)⟩
  rcases hrefines.shared with ⟨decoded, hdecoded, hshared⟩ | ⟨_, p, hp⟩
  · exact ⟨decoded, hdecoded, hshared.trans (LoadMergeStore.run_value hprotocol)⟩
  · rw [hreleased p] at hp
    cases hp

/-- No observed edge is lost if and only if every edge was in the initial file or was
observed by a process that the schedule carries: one met when going back from the
process that rewrote the file last to the one whose rewrite it had loaded, and so on.
The schedule carries every process exactly when no process loads between the load and
the rewrite of another one. -/
theorem complete_iff_carried {n : Nat} (order : Fin n → TargetOrder)
    {file : Option (List Char)} {initial : EdgeMap}
    (hvalid : loadEdgesFromJSON file .empty = .ok initial) (observed : Fin n → EdgeMap)
    {schedule : List (Event (Fin n))} {final : FiniState n}
    (hrun : finiRun order (.start file observed) schedule = some final)
    (hdone : ∀ p, final.phase p = .finished) :
    (final.Complete initial observed ↔
      ∀ p, ∀ edge ∈ (observed p).edges, edge ∈ initial.edges ∨
        ∃ q ∈ carried schedule, edge ∈ (observed q).edges) ∧
      ((∀ p, p ∈ carried schedule) ↔ Serial schedule) := by
  obtain ⟨⟨decoded, hdecoded, hedges⟩, hserial⟩ := finiRun_file hvalid hrun hdone
  have hmem : ∀ edge, edge ∈ decoded.edges ↔ edge ∈ initial.edges ∨
      ∃ q ∈ carried schedule, edge ∈ (observed q).edges := by
    intro edge
    rw [hedges, Finset.sup_eq_union, Finset.mem_union, Finset.mem_sup]
  refine ⟨?_, hserial⟩
  constructor
  · rintro ⟨decoded', hdecoded', hcomplete⟩ p edge hedge
    rw [hdecoded] at hdecoded'
    cases hdecoded'
    exact (hmem edge).mp ((hcomplete edge).mpr (Or.inr ⟨p, hedge⟩))
  · intro hcarried
    refine ⟨decoded, hdecoded, fun edge => ?_⟩
    rw [hmem]
    constructor
    · rintro (h | ⟨q, _, hq⟩)
      · exact Or.inl h
      · exact Or.inr ⟨q, hq⟩
    · rintro (h | ⟨p, hp⟩)
      · exact Or.inl h
      · exact hcarried p edge hp

/-- Two processes with one edge each. -/
def twoObserved : Fin 2 → EdgeMap :=
  fun p => if p = 0 then EdgeMap.empty.insertEdge 0x1000 0x2000
    else EdgeMap.empty.insertEdge 0x1000 0x3000

/-- One process after the other. -/
def serialSchedule : List (Event (Fin 2)) :=
  [.load 0, .acquire 0, .store 0, .release 0, .load 1, .acquire 1, .store 1, .release 1]

/-- Both processes load before either rewrites. -/
def racingSchedule : List (Event (Fin 2)) :=
  [.load 0, .load 1, .acquire 0, .store 0, .release 0, .acquire 1, .store 1, .release 1]

theorem complete_iff_carried_serial :
    ∃ final : FiniState 2,
      finiRun (fun _ => .ascending) (.start none twoObserved) serialSchedule = some final ∧
      (final.Complete .empty twoObserved ↔
        ∀ p, ∀ edge ∈ (twoObserved p).edges, edge ∈ EdgeMap.empty.edges ∨
          ∃ q ∈ carried serialSchedule, edge ∈ (twoObserved q).edges) ∧
        ((∀ p, p ∈ carried serialSchedule) ↔ Serial serialSchedule) := by
  have hfinished : (finiRun (fun _ => .ascending) (.start none twoObserved) serialSchedule).any
      (fun final => decide (∀ p, final.phase p = .finished)) = true := by decide
  obtain ⟨final, hrun, hdone⟩ := Option.any_eq_true _ _ |>.mp hfinished
  exact ⟨final, hrun, complete_iff_carried (fun _ => .ascending) rfl twoObserved hrun
    (of_decide_eq_true hdone)⟩

/-- When both processes load first, the edge of the one that rewrites first is lost. -/
theorem not_complete_racing :
    ¬ ∀ (n : Nat) (order : Fin n → TargetOrder) (file : Option (List Char)) (initial : EdgeMap),
        loadEdgesFromJSON file .empty = .ok initial →
        ∀ (observed : Fin n → EdgeMap) (schedule : List (Event (Fin n))) (final : FiniState n),
          finiRun order (.start file observed) schedule = some final →
          (∀ p, final.phase p = .finished) → final.Complete initial observed := by
  intro h
  have hfinished : (finiRun (fun _ => .ascending) (.start none twoObserved) racingSchedule).any
      (fun final => decide (∀ p, final.phase p = .finished)) = true := by decide
  obtain ⟨final, hrun, hdone⟩ := Option.any_eq_true _ _ |>.mp hfinished
  have hphases := of_decide_eq_true hdone
  obtain ⟨decoded, hdecoded, hmem⟩ := h 2 _ none .empty rfl twoObserved racingSchedule final hrun
    hphases
  obtain ⟨⟨decoded', hdecoded', hedges⟩, _⟩ := finiRun_file rfl hrun hphases
  rw [hdecoded] at hdecoded'
  cases hdecoded'
  have hobserved : ((0x1000, 0x2000) : ADDRINT × ADDRINT) ∈ (twoObserved 0).edges := by decide
  have hlost := (hmem (0x1000, 0x2000)).mpr (Or.inr ⟨0, hobserved⟩)
  rw [hedges] at hlost
  revert hlost
  decide

end Icflow.PinTool
