import Mathlib.Data.List.TakeWhile
import Mathlib.Logic.Function.Basic

set_option autoImplicit false

/-!
# The errexit option of the shell

A command that fails ends a shell with errexit, unless it stands where failures are
tested.  On the left of `||` errexit is ignored, and it stays ignored in every function
that is called from there (`eval_sequence_ignored`), so the first failing command of the
same function ends it in one place and not in the other (`eval_sequence`).
-/

namespace Icflow.Foundation.Shell

/-- An exit status; a shell has those below 256. -/
abbrev Status := Nat

/-- Commands over names `ν` of variables; `α` are the programs and builtins that are run. -/
inductive Command (ν α : Type) where
  /-- a program or a builtin, with the status it exits with -/
  | simple (program : α) (status : Status)
  /-- `:` or `true` -/
  | skip
  /-- `name=value` -/
  | assign (name : ν) (value : Status)
  /-- `name=$?` -/
  | capture (name : ν)
  /-- `return "$name"` -/
  | returnValue (name : ν)
  /-- one command after the other -/
  | seq (first second : Command ν α)
  /-- `first || second` -/
  | orElse (first second : Command ν α)
  /-- the call of a function with this body -/
  | call (body : Command ν α)

/-- How a command ends. -/
inductive Control where
  | done
  | returned
  | exited
  deriving DecidableEq

/-- The state of a shell, with the programs it has run. -/
structure State (ν α : Type) where
  values : ν → Status
  /-- `$?` -/
  last : Status
  executed : List α

variable {ν α : Type}

/-- With errexit in force a failed command ends the shell. -/
def settle (ignored : Bool) (s : State ν α) : Control × State ν α :=
  if s.last ≠ 0 ∧ ignored = false then (.exited, s) else (.done, s)

/-- What a command does under errexit; `ignored` says that its failure is tested by a
command around it. -/
@[simp] def eval [DecidableEq ν] (ignored : Bool) :
    Command ν α → State ν α → Control × State ν α
  | .simple program status, s =>
      settle ignored { s with last := status, executed := s.executed ++ [program] }
  | .skip, s => (.done, { s with last := 0 })
  | .assign name value, s =>
      (.done, { s with values := Function.update s.values name value, last := 0 })
  | .capture name, s =>
      (.done, { s with values := Function.update s.values name s.last, last := 0 })
  | .returnValue name, s => (.returned, { s with last := s.values name })
  | .seq first second, s =>
      match eval ignored first s with
      | (.done, s') => eval ignored second s'
      | (control, s') => (control, s')
  | .orElse first second, s =>
      match eval true first s with
      | (.done, s') => if s'.last = 0 then (.done, s') else eval ignored second s'
      | (control, s') => (control, s')
  | .call body, s =>
      match eval ignored body s with
      | (.exited, s') => (.exited, s')
      | (_, s') => settle ignored s'

/-- A program with the status it exits with. -/
abbrev Step (α : Type) := α × Status

/-- The body of a function that runs one program after the other. -/
def sequence : List (Step α) → Command ν α
  | [] => .skip
  | [step] => .simple step.1 step.2
  | step :: next :: rest => .seq (.simple step.1 step.2) (sequence (next :: rest))

/-- The programs up to the first that fails. -/
def untilFailure : List (Step α) → List α
  | [] => []
  | step :: rest => step.1 :: if step.2 = 0 then untilFailure rest else []

/-- The status of the last program. -/
def lastStatus (steps : List (Step α)) : Status := (steps.getLast?.map Prod.snd).getD 0

/-- The status of the first program that fails. -/
def firstFailure (steps : List (Step α)) : Status :=
  ((steps.map Prod.snd).find? (· ≠ 0)).getD 0

theorem lastStatus_cons_cons (step next : Step α) (rest : List (Step α)) :
    lastStatus (step :: next :: rest) = lastStatus (next :: rest) := by
  rw [lastStatus, List.getLast?_cons_cons, lastStatus]

theorem firstFailure_cons_of_zero {step : Step α} (h : step.2 = 0) (rest : List (Step α)) :
    firstFailure (step :: rest) = firstFailure rest := by
  simp [firstFailure, h]

theorem firstFailure_cons_of_ne {step : Step α} (h : step.2 ≠ 0) (rest : List (Step α)) :
    firstFailure (step :: rest) = step.2 := by
  simp [firstFailure, h]

theorem firstFailure_eq_zero_iff (steps : List (Step α)) :
    firstFailure steps = 0 ↔ ∀ step ∈ steps, step.2 = 0 := by
  induction steps with
  | nil => simp [firstFailure]
  | cons step rest ih =>
      rw [List.forall_mem_cons]
      by_cases hstep : step.2 = 0
      · rw [firstFailure_cons_of_zero hstep, ih, and_iff_right hstep]
      · rw [firstFailure_cons_of_ne hstep]
        simp [hstep]

/-- When none but the last fails, the first to fail is the last. -/
theorem firstFailure_eq_lastStatus {steps : List (Step α)}
    (h : ∀ step ∈ steps.dropLast, step.2 = 0) : firstFailure steps = lastStatus steps := by
  induction steps with
  | nil => rfl
  | cons step rest ih =>
      cases rest with
      | nil =>
          by_cases hstep : step.2 = 0
          · rw [firstFailure_cons_of_zero hstep]
            exact hstep.symm
          · rw [firstFailure_cons_of_ne hstep]
            rfl
      | cons next rest =>
          rw [List.dropLast_cons_cons, List.forall_mem_cons] at h
          rw [firstFailure_cons_of_zero h.1, lastStatus_cons_cons, ih h.2]

/-! ### Other names for the programs -/

section Rename

variable {β : Type} (f : α → β) (steps : List (Step α))

theorem firstFailure_rename :
    firstFailure (steps.map fun step => (f step.1, step.2)) = firstFailure steps := by
  simp [firstFailure, Function.comp_def]

theorem lastStatus_rename :
    lastStatus (steps.map fun step => (f step.1, step.2)) = lastStatus steps := by
  simp [lastStatus, Function.comp_def]

theorem untilFailure_rename :
    untilFailure (steps.map fun step => (f step.1, step.2)) = (untilFailure steps).map f := by
  induction steps with
  | nil => rfl
  | cons step rest ih =>
      rw [List.map_cons, untilFailure, ih, untilFailure]
      by_cases hstep : step.2 = 0 <;> simp [hstep]

end Rename

/-- All programs run exactly when none but the last fails. -/
theorem untilFailure_eq_map_iff (steps : List (Step α)) :
    untilFailure steps = steps.map Prod.fst ↔ ∀ step ∈ steps.dropLast, step.2 = 0 := by
  induction steps with
  | nil => simp [untilFailure]
  | cons step rest ih =>
      cases rest with
      | nil => simp [untilFailure]
      | cons next rest =>
          rw [untilFailure, List.dropLast_cons_cons, List.forall_mem_cons, ← ih]
          by_cases hstep : step.2 = 0
          · simp [hstep]
          · simp [hstep]

/-! ## Rules -/

theorem settle_ignored (s : State ν α) : settle true s = (.done, s) := by simp [settle]

theorem settle_errexit (s : State ν α) :
    settle false s = (if s.last = 0 then .done else .exited, s) := by
  by_cases hlast : s.last = 0 <;> simp [settle, hlast]

section Rules

variable [DecidableEq ν]

theorem eval_seq_of_done {ignored : Bool} {first : Command ν α} {s s' : State ν α}
    (h : eval ignored first s = (.done, s')) (second : Command ν α) :
    eval ignored (.seq first second) s = eval ignored second s' := by
  rw [eval, h]

theorem eval_seq_of_exited {ignored : Bool} {first : Command ν α} {s s' : State ν α}
    (h : eval ignored first s = (.exited, s')) (second : Command ν α) :
    eval ignored (.seq first second) s = (.exited, s') := by
  rw [eval, h]

theorem eval_orElse_of_zero {first : Command ν α} {s s' : State ν α}
    (h : eval true first s = (.done, s')) (hlast : s'.last = 0) (ignored : Bool)
    (second : Command ν α) : eval ignored (.orElse first second) s = (.done, s') := by
  rw [eval, h]
  exact if_pos hlast

theorem eval_orElse_of_ne {first : Command ν α} {s s' : State ν α}
    (h : eval true first s = (.done, s')) (hlast : s'.last ≠ 0) (ignored : Bool)
    (second : Command ν α) :
    eval ignored (.orElse first second) s = eval ignored second s' := by
  rw [eval, h]
  exact if_neg hlast

/-- A function that runs to its end fails with its last status. -/
theorem eval_call_of_ne_exited {ignored : Bool} {body : Command ν α} {control : Control}
    {s s' : State ν α} (h : eval ignored body s = (control, s')) (hcontrol : control ≠ .exited) :
    eval ignored (.call body) s = settle ignored s' := by
  rw [eval, h]
  cases control with
  | done => rfl
  | returned => rfl
  | exited => exact absurd rfl hcontrol

theorem eval_call_of_exited {ignored : Bool} {body : Command ν α} {s s' : State ν α}
    (h : eval ignored body s = (.exited, s')) :
    eval ignored (.call body) s = (.exited, s') := by
  rw [eval, h]

/-- Where errexit is ignored nothing ends the shell, however deep the calls are. -/
theorem eval_ignored_ne_exited (c : Command ν α) (s : State ν α) : (eval true c s).1 ≠ .exited := by
  induction c generalizing s with
  | simple program status => simp [eval, settle]
  | skip => simp [eval]
  | assign name value => simp [eval]
  | capture name => simp [eval]
  | returnValue name => simp [eval]
  | seq first second ihFirst ihSecond =>
      have hfirst := ihFirst s
      unfold eval
      split
      · exact ihSecond _
      · rename_i control s' _ heq
        rw [heq] at hfirst
        exact hfirst
  | orElse first second ihFirst ihSecond =>
      have hfirst := ihFirst s
      unfold eval
      split
      · split
        · simp
        · exact ihSecond _
      · rename_i control s' _ heq
        rw [heq] at hfirst
        exact hfirst
  | call body ih =>
      have hbody := ih s
      unfold eval
      split
      · rename_i s' heq
        rw [heq] at hbody
        exact absurd rfl hbody
      · rw [settle_ignored]
        simp

theorem eval_call_ignored (body : Command ν α) (s : State ν α) :
    eval true (.call body) s = (.done, (eval true body s).2) := by
  have hbody : eval true body s = ((eval true body s).1, (eval true body s).2) := rfl
  rw [eval_call_of_ne_exited hbody (eval_ignored_ne_exited body s), settle_ignored]

theorem eval_simple_ignored (program : α) (status : Status) (s : State ν α) :
    eval true (.simple program status) s =
      (.done, { s with last := status, executed := s.executed ++ [program] }) := by
  rw [eval, settle_ignored]

theorem eval_simple_of_zero (program : α) (s : State ν α) :
    eval false (.simple program 0) s =
      (.done, { s with last := 0, executed := s.executed ++ [program] }) := by
  rw [eval, settle, if_neg fun h => h.1 rfl]

theorem eval_simple_of_ne {status : Status} (h : status ≠ 0) (program : α) (s : State ν α) :
    eval false (.simple program status) s =
      (.exited, { s with last := status, executed := s.executed ++ [program] }) := by
  rw [eval, settle, if_pos ⟨h, rfl⟩]

/-- Where errexit is ignored all programs run. -/
theorem eval_sequence_ignored (steps : List (Step α)) (s : State ν α) :
    eval true (sequence steps) s =
      (.done, { s with
        last := lastStatus steps
        executed := s.executed ++ steps.map Prod.fst }) := by
  induction steps generalizing s with
  | nil => simp [sequence, eval, lastStatus]
  | cons step rest ih =>
      cases rest with
      | nil =>
          rw [sequence, eval_simple_ignored]
          rfl
      | cons next rest =>
          rw [sequence, eval_seq_of_done (eval_simple_ignored step.1 step.2 s), ih,
            lastStatus_cons_cons]
          simp

/-- Under errexit the programs run up to the first that fails. -/
theorem eval_sequence (steps : List (Step α)) (s : State ν α) :
    eval false (sequence steps) s =
      (if firstFailure steps = 0 then .done else .exited,
        { s with
          last := firstFailure steps
          executed := s.executed ++ untilFailure steps }) := by
  induction steps generalizing s with
  | nil => simp [sequence, eval, firstFailure, untilFailure]
  | cons step rest ih =>
      obtain ⟨program, status⟩ := step
      by_cases hstatus : status = 0
      · subst hstatus
        rw [firstFailure_cons_of_zero rfl]
        cases rest with
        | nil =>
            rw [sequence, eval_simple_of_zero]
            simp [firstFailure, untilFailure]
        | cons next rest =>
            rw [sequence, eval_seq_of_done (eval_simple_of_zero program s), ih]
            simp [untilFailure]
      · rw [firstFailure_cons_of_ne hstatus]
        cases rest with
        | nil =>
            rw [sequence, eval_simple_of_ne hstatus]
            simp [hstatus, untilFailure]
        | cons next rest =>
            rw [sequence, eval_seq_of_exited (eval_simple_of_ne hstatus program s)]
            simp [hstatus, untilFailure]

end Rules

end Icflow.Foundation.Shell
