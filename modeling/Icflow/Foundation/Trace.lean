import Mathlib.Data.List.Basic

set_option autoImplicit false

/-!
# Runs and their events

A step relation relates two states and lists the events of the step.  `Trace` chains
steps and appends their events.
-/

namespace Icflow.Foundation

variable {σ τ ω : Type} {step : σ → List ω → σ → Prop} {s s' s'' : σ} {events more : List ω}

/-- A run from `s`, with the events of its steps in order. -/
inductive Trace (step : σ → List ω → σ → Prop) (s : σ) : List ω → σ → Prop where
  | refl : Trace step s [] s
  | tail {events : List ω} {s' : σ} {more : List ω} {s'' : σ} (h : Trace step s events s')
      (hstep : step s' more s'') : Trace step s (events ++ more) s''

theorem Trace.single (hstep : step s events s') : Trace step s events s' :=
  Trace.refl.tail hstep

theorem Trace.trans (h : Trace step s events s') (h' : Trace step s' more s'') :
    Trace step s (events ++ more) s'' := by
  induction h' with
  | refl =>
      rw [List.append_nil]
      exact h
  | tail _ hstep ih =>
      rw [← List.append_assoc]
      exact ih.tail hstep

theorem Trace.head (hstep : step s events s') (h : Trace step s' more s'') :
    Trace step s (events ++ more) s'' :=
  (Trace.single hstep).trans h

/-- What holds at the start and is kept by every step holds of every run. -/
theorem Trace.invariant (h : Trace step s events s') (Inv : List ω → σ → Prop) (hstart : Inv [] s)
    (hstep : ∀ events s more s', Inv events s → step s more s' → Inv (events ++ more) s') :
    Inv events s' := by
  induction h with
  | refl => exact hstart
  | tail _ step ih => exact hstep _ _ _ _ ih step

/-- Runs of one relation are runs of another that simulates it step by step. -/
theorem Trace.map {step' : τ → List ω → τ → Prop} (f : σ → τ)
    (hmap : ∀ s more s', step s more s' → step' (f s) more (f s'))
    (h : Trace step s events s') : Trace step' (f s) events (f s') := by
  induction h with
  | refl => exact .refl
  | tail _ hstep ih => exact ih.tail (hmap _ _ _ hstep)

end Icflow.Foundation
