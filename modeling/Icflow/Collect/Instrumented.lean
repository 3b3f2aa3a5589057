import Icflow.Foundation.Errexit

set_option autoImplicit false

/-!
# The instrumented `check()`

`write_instrumented_pkgbuild` renames the `check()` of a PKGBUILD and calls it on the left
of `||`, between the scripts that wrap and restore the executables.  There errexit is
ignored in the whole body, so a failing command no longer ends it (`keepsMeaning_iff`).
-/

namespace Icflow.Collect

open Icflow.Foundation
open Icflow.Foundation.Shell

variable {α : Type}

/-- What is run during the tests of a package. -/
inductive Program (α : Type) where
  /-- `wrap_with_mypintool.sh` -/
  | wrap
  /-- `restore_wrapped_elfs.sh` -/
  | restore
  /-- a command of the package -/
  | command (name : α)
  deriving DecidableEq

/-- The variables of the instrumented `check()`. -/
inductive Variable where
  | icflowCheckStatus
  deriving DecidableEq

/-- How the two scripts exit. -/
structure Scripts where
  wrap : Status
  restore : Status

/-- `check()` of the PKGBUILD, and `icflow_original_check` -/
def originalCheck (body : List (Step α)) : Command Variable (Program α) :=
  sequence (body.map fun step => (.command step.1, step.2))

/-- The `check()` that `write_instrumented_pkgbuild` puts in the place of another. -/
def instrumentedCheck (scripts : Scripts) (check : Command Variable (Program α)) :
    Command Variable (Program α) :=
  .seq (.assign .icflowCheckStatus 0)
    (.seq (.simple .wrap scripts.wrap)
      (.seq (.orElse (.call check) (.capture .icflowCheckStatus))
        (.seq (.orElse (.simple .restore scripts.restore) .skip)
          (.returnValue .icflowCheckStatus))))

/-- The shell in which makepkg calls `check()`. -/
def shell : State Variable (Program α) := ⟨fun _ => 0, 0, []⟩

/-- makepkg calls `check` with errexit in force. -/
def runCheck (check : Command Variable (Program α)) : Control × State Variable (Program α) :=
  eval false (.call check) shell

/-- makepkg takes the tests for passed. -/
def Succeeds (check : Command Variable (Program α)) : Prop :=
  (runCheck check).1 = .done

/-- The name of a command of the package. -/
def Program.commandName : Program α → Option α
  | .command name => some name
  | .wrap | .restore => none

/-- The commands of the body that are executed. -/
def executedCommands (check : Command Variable (Program α)) : List α :=
  (runCheck check).2.executed.filterMap Program.commandName

/-- The restore step runs, and no command of the body runs after it. -/
def RestoredAfterBody (check : Command Variable (Program α)) : Prop :=
  ∃ before after, (runCheck check).2.executed = before ++ .restore :: after ∧
    after.filterMap Program.commandName = []

/-- The instrumented `check()` means what the original one does. -/
structure KeepsMeaning (scripts : Scripts) (body : List (Step α)) : Prop where
  executed : executedCommands (instrumentedCheck scripts (originalCheck body)) =
    executedCommands (originalCheck body)
  success : Succeeds (instrumentedCheck scripts (originalCheck body)) ↔
    Succeeds (originalCheck body)
  restored : RestoredAfterBody (instrumentedCheck scripts (originalCheck body))

/-! ## The two runs -/

variable {scripts : Scripts}

theorem runCheck_originalCheck (body : List (Step α)) :
    runCheck (originalCheck body) =
      (if firstFailure body = 0 then .done else .exited,
        ⟨fun _ => 0, firstFailure body, (untilFailure body).map Program.command⟩) := by
  have hbody := eval_sequence (body.map fun step => (Program.command step.1, step.2)) shell
  rw [firstFailure_rename, untilFailure_rename] at hbody
  rw [runCheck, originalCheck]
  by_cases hfailure : firstFailure body = 0
  · rw [if_pos hfailure] at hbody
    rw [eval_call_of_ne_exited hbody (by simp), settle_errexit]
    rfl
  · rw [if_neg hfailure] at hbody
    rw [eval_call_of_exited hbody, if_neg hfailure]
    rfl

/-- What the variable holds once the body has left the shell in a state. -/
def savedStatus (s : State Variable (Program α)) : Status :=
  if s.last = 0 then s.values .icflowCheckStatus else s.last

/-- The call on the left of `||`, and the assignment on its right: errexit is ignored. -/
theorem eval_orElse_call (check : Command Variable (Program α)) (s : State Variable (Program α)) :
    ∃ s', eval false (.orElse (.call check) (.capture .icflowCheckStatus)) s = (.done, s') ∧
      s'.values .icflowCheckStatus = savedStatus (eval true check s).2 ∧
      s'.executed = (eval true check s).2.executed := by
  have hcall := eval_call_ignored check s
  by_cases hlast : (eval true check s).2.last = 0
  · exact ⟨_, eval_orElse_of_zero hcall hlast false _, by rw [savedStatus, if_pos hlast], rfl⟩
  · refine ⟨_, (eval_orElse_of_ne hcall hlast false _).trans rfl, ?_, rfl⟩
    rw [savedStatus, if_neg hlast]
    simp

/-- The restore script may fail. -/
theorem eval_orElse_restore (scripts : Scripts) (s : State Variable (Program α)) :
    ∃ s', eval false (.orElse (.simple .restore scripts.restore) .skip) s = (.done, s') ∧
      s'.values = s.values ∧ s'.executed = s.executed ++ [.restore] := by
  have hscript := eval_simple_ignored Program.restore scripts.restore s
  by_cases hrestore : scripts.restore = 0
  · exact ⟨_, eval_orElse_of_zero hscript hrestore false _, rfl, rfl⟩
  · exact ⟨_, (eval_orElse_of_ne hscript hrestore false _).trans rfl, rfl, rfl⟩

/-- The shell behind the declaration of the variable. -/
theorem eval_declaration :
    eval false (.assign Variable.icflowCheckStatus 0) (shell (α := α)) = (.done, shell) := by
  rw [eval, shell, Function.update_eq_self_iff.mpr rfl]

/-- A wrap script that fails ends `check()` at once. -/
theorem runCheck_instrumented_of_ne (hwrap : scripts.wrap ≠ 0)
    (check : Command Variable (Program α)) :
    runCheck (instrumentedCheck scripts check) =
      (.exited, ⟨fun _ => 0, scripts.wrap, [.wrap]⟩) := by
  have hscript := eval_simple_of_ne hwrap Program.wrap (shell (α := α))
  rw [runCheck, instrumentedCheck]
  refine eval_call_of_exited ?_
  rw [eval_seq_of_done eval_declaration]
  exact eval_seq_of_exited hscript _

/-- The shell in which the body runs between the two scripts. -/
def wrapped : State Variable (Program α) := ⟨fun _ => 0, 0, [.wrap]⟩

/-- Once the executables are wrapped, the body runs with errexit ignored, whatever it
consists of, and then the restore script. -/
theorem runCheck_instrumented_of_zero (hwrap : scripts.wrap = 0)
    (check : Command Variable (Program α)) :
    ∃ s, runCheck (instrumentedCheck scripts check) =
        (if savedStatus (eval true check wrapped).2 = 0 then .done else .exited, s) ∧
      s.executed = (eval true check wrapped).2.executed ++ [.restore] := by
  have hscript : eval false (.simple .wrap 0) (shell (α := α)) = (.done, wrapped) :=
    eval_simple_of_zero Program.wrap shell
  obtain ⟨tested, htested, hstatus, hcommands⟩ := eval_orElse_call check wrapped
  obtain ⟨restored, hrestored, hvalues, hexecuted⟩ := eval_orElse_restore scripts tested
  have hbody : eval false (instrumentedCheck scripts check) shell =
      (.returned, { restored with last := restored.values .icflowCheckStatus }) := by
    rw [instrumentedCheck, hwrap, eval_seq_of_done eval_declaration, eval_seq_of_done hscript]
    exact (eval_seq_of_done htested _).trans (eval_seq_of_done hrestored _)
  refine ⟨{ restored with last := restored.values .icflowCheckStatus }, ?_, ?_⟩
  · rw [runCheck, eval_call_of_ne_exited hbody (by simp), settle_errexit, hvalues, hstatus]
  · rw [hexecuted, hcommands]

/-- The restore step runs after the body whenever the executables have been wrapped,
whatever fails and whatever the body consists of. -/
theorem restoredAfterBody_of_zero (hwrap : scripts.wrap = 0)
    (check : Command Variable (Program α)) :
    RestoredAfterBody (instrumentedCheck scripts check) := by
  obtain ⟨s, hrun, hexecuted⟩ := runCheck_instrumented_of_zero hwrap check
  refine ⟨(eval true check wrapped).2.executed, [], ?_, rfl⟩
  rw [hrun]
  exact hexecuted

/-! ## When the meaning is kept -/

theorem filterMap_commandName (names : List α) :
    (names.map Program.command).filterMap Program.commandName = names := by
  rw [List.filterMap_map]
  exact List.filterMap_some

theorem executedCommands_originalCheck (body : List (Step α)) :
    executedCommands (originalCheck body) = untilFailure body := by
  rw [executedCommands, runCheck_originalCheck]
  exact filterMap_commandName _

theorem succeeds_originalCheck_iff (body : List (Step α)) :
    Succeeds (originalCheck body) ↔ ∀ step ∈ body, step.2 = 0 := by
  rw [Succeeds, runCheck_originalCheck, ← firstFailure_eq_zero_iff]
  simp

/-- The body between the two scripts runs to its end. -/
theorem eval_originalCheck_wrapped (body : List (Step α)) :
    eval true (originalCheck body) wrapped =
      (.done, ⟨fun _ => 0, lastStatus body,
        [.wrap] ++ (body.map Prod.fst).map Program.command⟩) := by
  have hbody := eval_sequence_ignored
    (body.map fun step => (Program.command step.1, step.2)) (wrapped (α := α))
  rw [lastStatus_rename, List.map_map] at hbody
  rw [List.map_map]
  exact hbody

theorem executedCommands_instrumentedCheck (hwrap : scripts.wrap = 0) (body : List (Step α)) :
    executedCommands (instrumentedCheck scripts (originalCheck body)) = body.map Prod.fst := by
  obtain ⟨s, hrun, hexecuted⟩ := runCheck_instrumented_of_zero hwrap (originalCheck body)
  rw [eval_originalCheck_wrapped] at hexecuted
  rw [executedCommands, hrun, hexecuted, List.filterMap_append, List.filterMap_append,
    filterMap_commandName]
  exact List.append_nil _

theorem succeeds_instrumentedCheck_iff (hwrap : scripts.wrap = 0) (body : List (Step α)) :
    Succeeds (instrumentedCheck scripts (originalCheck body)) ↔ lastStatus body = 0 := by
  obtain ⟨s, hrun, _⟩ := runCheck_instrumented_of_zero hwrap (originalCheck body)
  rw [Succeeds, hrun, eval_originalCheck_wrapped, savedStatus]
  by_cases hlast : lastStatus body = 0 <;> simp [hlast]

/-- The instrumented `check()` means what the original one does exactly when the wrap
script succeeds and no command but the last one fails. -/
theorem keepsMeaning_iff (scripts : Scripts) (body : List (Step α)) :
    KeepsMeaning scripts body ↔ scripts.wrap = 0 ∧ ∀ step ∈ body.dropLast, step.2 = 0 := by
  by_cases hwrap : scripts.wrap = 0
  · rw [and_iff_right hwrap, ← untilFailure_eq_map_iff]
    constructor
    · intro h
      have hsame := h.executed
      rw [executedCommands_instrumentedCheck hwrap, executedCommands_originalCheck] at hsame
      exact hsame.symm
    · intro h
      refine ⟨?_, ?_, restoredAfterBody_of_zero hwrap (originalCheck body)⟩
      · rw [executedCommands_instrumentedCheck hwrap, executedCommands_originalCheck, h]
      · rw [succeeds_instrumentedCheck_iff hwrap, succeeds_originalCheck_iff,
          ← firstFailure_eq_zero_iff,
          firstFailure_eq_lastStatus ((untilFailure_eq_map_iff body).mp h)]
  · refine iff_of_false ?_ fun h => hwrap h.1
    intro h
    obtain ⟨before, after, hexecuted, _⟩ := h.restored
    rw [runCheck_instrumented_of_ne hwrap] at hexecuted
    have hmem : Program.restore ∈ [(Program.wrap : Program α)] := by
      rw [show [Program.wrap] = before ++ .restore :: after from hexecuted]
      exact List.mem_append_right before List.mem_cons_self
    simp at hmem

/-- A body that first changes to the directory of the tests, where that fails. -/
def failingChangeDirectory : List (Step String) := [("cd", 1), ("make check", 0)]

theorem not_keepsMeaning_failingChangeDirectory :
    (Succeeds (instrumentedCheck ⟨0, 0⟩ (originalCheck failingChangeDirectory)) ∧
        ¬ Succeeds (originalCheck failingChangeDirectory)) ∧
      ¬ KeepsMeaning ⟨0, 0⟩ failingChangeDirectory := by
  have hinstrumented :
      Succeeds (instrumentedCheck ⟨0, 0⟩ (originalCheck failingChangeDirectory)) := by
    rw [succeeds_instrumentedCheck_iff rfl]
    rfl
  have horiginal : ¬ Succeeds (originalCheck failingChangeDirectory) := by
    rw [succeeds_originalCheck_iff]
    intro h
    cases h ("cd", 1) List.mem_cons_self
  exact ⟨⟨hinstrumented, horiginal⟩, fun h => horiginal (h.success.mp hinstrumented)⟩

end Icflow.Collect
