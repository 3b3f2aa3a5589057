import Icflow.Wrap.Reversible

set_option autoImplicit false

/-!
# Restoring after an interruption

One of the scripts is killed between two commands and the tree is restored.  Where the
kill falls between the move that takes a file away and the move that puts a file back in
its place, no file is at the path, and the restore, which asks for a wrapper there,
leaves it so (`absent_of_restore`).  Everywhere else the tree is an overlay.
-/

namespace Icflow.Wrap

open Icflow.Foundation

/-- Every executable of the tree is at its path, with its bytes, and is no wrapper. -/
def Recovered (host : Host) (root : Path) (T fs : FileSystem) : Prop :=
  ∀ path content mode, inTree root path = true → T path = some (.file content mode) →
    host.executable mode = true →
      fs path = some (.file content mode) ∧ ¬ IsWrapper (fs path)

/-- Whichever script is killed after a session, and wherever, a complete restore recovers
every executable. -/
structure Recoverable (host : Host) (root : Path) (T : FileSystem) (scope : Scope) : Prop where
  wrapping : ∀ fs, Session host root T scope fs → ∀ setup s, Wraps host setup root fs s →
    scope.wraps setup fs s → ∀ r, FeedLoop.Reachable (restoreScript host root) s.store r →
      r.Finished → scope.restores r → Recovered host root T r.store
  restoring : ∀ fs, Session host root T scope fs → ∀ s,
    FeedLoop.Reachable (restoreScript host root) fs s → scope.restores s → ∀ r,
      FeedLoop.Reachable (restoreScript host root) s.store r → r.Finished → scope.restores r →
        Recovered host root T r.store

/-- Some of the commands of an iteration have run, and some have not. -/
def Partway (commands : Nat) (s : FeedLoop.State FileSystem Path Command) : Prop :=
  0 < s.pending.length ∧ s.pending.length < commands

section Interruption

variable {host : Host} {root : Path} {T T' fs : FileSystem} {places : Set Path}
  {r : FeedLoop.State FileSystem Path Command}

theorem recovered_self (hmarker : Unmarked root T) : Recovered host root T T := by
  intro path content mode hin hfile _
  refine ⟨hfile, ?_⟩
  rintro ⟨content', mode', hwrapper, hline, _⟩
  rw [hwrapper] at hfile
  rw [hmarker path content' mode' hin hwrapper] at hline
  cases hline

/-! ## A path the restore does not fill -/

/-- What `mv` of a backup writes to is where it was asked to, or another backup name. -/
theorem moveTarget_orig (fs : FileSystem) (w : Path) :
    moveTarget fs (orig w) w = w ∨
      ".orig".toList.isSuffixOf (moveTarget fs (orig w) w) = true := by
  have hslash : '/' ∉ ".orig".toList := by decide
  unfold moveTarget
  split
  · rename_i directory _
    split
    · refine Or.inr ?_
      rw [orig, filename_append_suffix w hslash, ← List.cons_append, ← List.append_assoc]
      exact isSuffixOf_orig _
    · exact Or.inl rfl
  · exact Or.inl rfl

/-- The commands that restore one file create no other one. -/
theorem exec_restore_absent {umask : Umask} {x w : Path} {fs' : FileSystem}
    (hname : ".orig".toList.isSuffixOf x = false) (hne : w ≠ x) (habsent : fs x = none)
    {command : Command} (hcommand : command ∈ restoreCommands w)
    (hexec : command.exec umask fs = some fs') : fs' x = none := by
  rcases List.mem_cons.mp hcommand with rfl | hmv
  · simp only [Command.exec] at hexec
    split at hexec
    · cases hexec
    · rw [← Option.some.inj hexec, Function.update_of_ne hne.symm]
      exact habsent
  · obtain rfl := List.mem_singleton.mp hmv
    have htarget : x ≠ moveTarget fs (orig w) w := by
      intro heq
      rcases moveTarget_orig fs w with hself | hsuffix
      · exact hne (hself.symm.trans heq.symm)
      · rw [← heq, hname] at hsuffix
        cases hsuffix
    simp only [Command.exec] at hexec
    split at hexec
    · cases hexec
    · split at hexec
      · cases hexec
      · rw [← Option.some.inj hexec, Function.update_of_ne htarget, Function.update_apply]
        split
        · rfl
        · exact habsent

/-- The restore loop asks for a wrapper at the path it restores. -/
theorem restoreBody_present {path : Path} (hsuffix : ".orig".toList.isSuffixOf path = true)
    {command : Command} (hcommand : command ∈ restoreBody fs path) :
    command ∈ restoreCommands (stripOrig path) ∧ fs (stripOrig path) ≠ none := by
  unfold restoreBody at hcommand
  simp only at hcommand
  split at hcommand
  · rename_i htest
    refine ⟨?_, ?_⟩
    · rw [restoreCommands, orig_stripOrig hsuffix]
      exact hcommand
    · intro hnone
      have hregular := (Bool.and_eq_true _ _ ▸ htest).1
      rw [isRegular_of_free hnone] at hregular
      cases hregular
  · cases hcommand

/-- What holds in every state of a restore that has found nothing at `x`. -/
structure AbsentInvariant (x : Path) (s : FeedLoop.State FileSystem Path Command) : Prop where
  absent : s.store x = none
  backups : ∀ path ∈ s.queue, ".orig".toList.isSuffixOf path = true
  others : ∀ command ∈ s.pending, ∃ w, w ≠ x ∧ command ∈ restoreCommands w

theorem AbsentInvariant.step {x : Path} {s s' : FeedLoop.State FileSystem Path Command}
    (hname : ".orig".toList.isSuffixOf x = false) (hinv : AbsentInvariant x s)
    (hstep : FeedLoop.Step (restoreScript host root) s s') : AbsentInvariant x s' := by
  cases hstep with
  | report item _ hmatch =>
      refine ⟨hinv.absent, ?_, hinv.others⟩
      intro path hpath
      rcases List.mem_append.mp hpath with hold | hnew
      · exact hinv.backups path hold
      · rw [List.mem_singleton.mp hnew]
        exact hmatch.2.1
  | finish _ _ => exact ⟨hinv.absent, hinv.backups, hinv.others⟩
  | take item rest _ hqueue =>
      refine ⟨hinv.absent, ?_, ?_⟩
      · intro path hpath
        exact hinv.backups path (hqueue ▸ List.mem_cons_of_mem item hpath)
      · intro command hcommand
        have hsuffix := hinv.backups item (hqueue ▸ List.mem_cons_self)
        obtain ⟨hmem, hpresent⟩ := restoreBody_present hsuffix hcommand
        refine ⟨stripOrig item, ?_, hmem⟩
        intro heq
        rw [heq] at hpresent
        exact hpresent hinv.absent
  | exec command rest store hpending hexec =>
      obtain ⟨w, hne, hmem⟩ := hinv.others command (hpending ▸ List.mem_cons_self)
      refine ⟨exec_restore_absent hname hne hinv.absent hmem hexec, hinv.backups, ?_⟩
      intro other hother
      exact hinv.others other (hpending ▸ List.mem_cons_of_mem command hother)
  | fail command rest _ _ =>
      refine ⟨hinv.absent, ?_, ?_⟩
      · intro path hpath
        cases hpath
      · intro other hother
        cases hother

/-- A restore puts nothing at a path where it finds nothing. -/
theorem absent_of_restore {x : Path} (hname : ".orig".toList.isSuffixOf x = false)
    (habsent : fs x = none) (hreach : FeedLoop.Reachable (restoreScript host root) fs r) :
    r.store x = none := by
  have hinv : AbsentInvariant x r := by
    apply hreach.invariant (AbsentInvariant x)
    · refine ⟨habsent, ?_, ?_⟩
      · intro path hpath
        cases hpath
      · intro command hcommand
        cases hcommand
    · intro s s' hinv hstep
      exact hinv.step hname hstep
  exact hinv.absent

/-! ## The two kinds of states -/

/-- An executable is gone from its path. -/
def Gone (host : Host) (root : Path) (T fs : FileSystem) : Prop :=
  ∃ x, Wrappable host root T x ∧ fs x = none

theorem Wrappable.not_suffix {x : Path} (h : Wrappable host root T x) :
    ".orig".toList.isSuffixOf x = false := by
  have hname := h.2.2.1
  unfold skippedName at hname
  rw [Bool.or_eq_false_iff, Bool.or_eq_false_iff] at hname
  exact hname.1.1

/-- What is gone stays gone. -/
theorem Gone.not_recovered (h : Gone host root T' fs) (hgrown : Grown places T T')
    (hreach : FeedLoop.Reachable (restoreScript host root) fs r) :
    ¬ Recovered host root T r.store := by
  intro hrecovered
  obtain ⟨x, hx, habsent⟩ := h
  obtain ⟨hin, _, _, content, mode, hfile, hmode, _⟩ := hgrown.wrappable hx
  have hpresent := (hrecovered x content mode hin hfile hmode).1
  rw [absent_of_restore hx.not_suffix habsent hreach] at hpresent
  cases hpresent

/-- Between two iterations of the wrap loop the tree is an overlay, and inside one the
executable at hand is gone. -/
theorem WrapProgress.overlay_or_gone {setup : Setup} {pending : List Command}
    (h : WrapProgress host setup root T fs pending) :
    (¬ (0 < pending.length ∧ pending.length < 4) ∧ ∃ W, Overlay host root T W fs) ∨
      (0 < pending.length ∧ pending.length < 4) ∧ Gone host root T fs := by
  cases h with
  | idle W _ h => exact Or.inl ⟨by simp, W, h⟩
  | refused W _ x rest h _ _ hlength => exact Or.inl ⟨by simp [hlength], W, h⟩
  | ready W _ x content mode h => exact Or.inl ⟨by simp, W, h.overlay⟩
  | moved W fs x content mode h =>
      exact Or.inr ⟨by simp, x, h.wrappable, movedAway_self fs x _⟩
  | written W fs x content mode h =>
      exact Or.inr ⟨by simp, x, h.wrappable, (h.midway_temporary _).gone⟩
  | executable W fs x content mode h =>
      exact Or.inr ⟨by simp, x, h.wrappable, (h.midway_temporary _).gone⟩

theorem RestoreProgress.overlay_or_gone {W : Set Path} {pending : List Command}
    (h : RestoreProgress host root T W fs pending) :
    (¬ (0 < pending.length ∧ pending.length < 2) ∧ Overlay host root T W fs) ∨
      (0 < pending.length ∧ pending.length < 2) ∧ Gone host root T fs := by
  cases h with
  | idle _ h => exact Or.inl ⟨by simp, h⟩
  | ready _ x h _ => exact Or.inl ⟨by simp [restoreCommands], h⟩
  | removed fs x h hx =>
      exact Or.inr ⟨by simp, x, h.wrappable x hx, Function.update_self x none fs⟩

/-- A body that has not begun is not partway. -/
theorem not_partway_wrapBody (host : Host) (setup : Setup) (fs : FileSystem) (x : Path) :
    ¬ (0 < (wrapBody host setup fs x).length ∧ (wrapBody host setup fs x).length < 4) := by
  rcases wrapBody_cases host setup fs x with hnothing | ⟨hname, helf, hbackup⟩
  · simp [hnothing]
  · have hbody : wrapBody host setup fs x = _ := wrapBody_eq hname helf hbackup
    simp [hbody]

theorem not_partway_restoreBody (fs : FileSystem) (x : Path) :
    ¬ (0 < (restoreBody fs x).length ∧ (restoreBody fs x).length < 2) := by
  unfold restoreBody
  simp only
  split <;> simp

/-- A restore from an overlay recovers everything. -/
theorem Overlay.recovered {W : Set Path} (h : Overlay host root T' W fs)
    (hgrown : Grown places T T') (hmarker : Unmarked root T)
    (hreach : FeedLoop.Reachable (restoreScript host root) fs r) (hfinished : r.Finished)
    (hclear : r.GoodSoFar (restoreScript host root) RestoreClear) :
    Recovered host root T r.store := by
  have hmarker' := hgrown.unmarked hmarker
  rw [h.eq_of_finished hmarker' hreach hfinished hclear]
  intro path content mode hin hfile hmode
  exact recovered_self hmarker' path content mode hin (hgrown.of_some hfile) hmode

end Interruption

/-- The sample tree when the wrapper is killed after its first move. -/
theorem wraps_movedAway :
    ∃ s, Wraps sampleHost sampleSetup ['/', 'r'] (sampleTree none) s ∧
      s.store = movedAway (withLog (sampleTree none)) samplePath sampleElf ∧
      s.taken = [(withLog (sampleTree none), samplePath)] ∧ Partway 4 s := by
  have hmatch : wrapMatching sampleHost ['/', 'r'] (withLog (sampleTree none)) samplePath := by
    exact (withLog_matching none none_ne_file samplePath).mpr rfl
  have hstart : FeedLoop.Reachable (wrapScript sampleHost sampleSetup ['/', 'r'])
      (withLog (sampleTree none))
      (.start (wrapScript sampleHost sampleSetup ['/', 'r']) (withLog (sampleTree none))) := .refl
  have hreport := hstart.tail (.report _ samplePath rfl hmatch)
  have htake := hreport.tail (.take _ samplePath [] rfl rfl)
  have hexec := htake.tail
    (.exec _ _ _ (movedAway (withLog (sampleTree none)) samplePath sampleElf) rfl rfl)
  exact ⟨_, .looping _ _ (prepared_sampleTree none) hexec, rfl, rfl, by decide, by decide⟩

/-- The restore that follows does nothing. -/
theorem restore_movedAway :
    ∃ r, FeedLoop.Reachable (restoreScript sampleHost ['/', 'r'])
        (movedAway (withLog (sampleTree none)) samplePath sampleElf) r ∧ r.Finished ∧
      r.store = movedAway (withLog (sampleTree none)) samplePath sampleElf ∧
      r.taken = [(movedAway (withLog (sampleTree none)) samplePath sampleElf, orig samplePath)] := by
  have hsingle : ∀ other, restoreMatching ['/', 'r']
      (movedAway (withLog (sampleTree none)) samplePath sampleElf) other →
        other = orig samplePath := by
    rintro other ⟨hin, _, content, mode, hfile⟩
    by_contra hne
    rw [movedAway, Function.update_of_ne hne, Function.update_apply] at hfile
    split at hfile
    · cases hfile
    · rename_i hself
      rcases withLog_file hfile with rfl | htree
      · exact absurd hin (by decide)
      · exact hself (sampleTree_file none_ne_file htree).1
  have hrun : ∃ r, FeedLoop.Reachable (restoreScript sampleHost ['/', 'r'])
      (movedAway (withLog (sampleTree none)) samplePath sampleElf) r ∧ r.Finished ∧
        r.failed = false ∧ r.store = movedAway (withLog (sampleTree none)) samplePath sampleElf ∧
          r.taken =
            [(movedAway (withLog (sampleTree none)) samplePath sampleElf, orig samplePath)] :=
    FeedLoop.reachable_of_single (orig samplePath) ⟨by decide, by decide, _, _, rfl⟩ hsingle rfl
  obtain ⟨r, hreach, hfinished, _, hstore, htaken⟩ := hrun
  exact ⟨r, hreach, hfinished, hstore, htaken⟩

end Icflow.Wrap
