import Icflow.Collect.Artifacts
import Icflow.Wrap.RestoreLoop

set_option autoImplicit false

/-!
# A process of the tool in the package's tree

`toolRun` is what a process that runs a wrapped executable leaves of the tree, whether
it gets to its end or is killed while it saves.  All it can do to a result file is
described by `SavedAt`, and a file saved in that way can be added to a tree and to its
overlays alike.
-/

namespace Icflow.Collect

open Icflow.Foundation
open Icflow.Wrap
open Icflow.PinTool

/-- How far a process gets with saving, with the bytes it writes of the file at hand. -/
inductive Ending where
  | complete
  | killedInJumps (count : Nat)
  | killedInCalls (count : Nat)

/-- Opening a path for writing and writing a text to it. -/
def saveText (umask : Umask) (access : Access) (path : Path) (text : Option (List Char))
    (fs : FileSystem) : FileSystem :=
  match access.writable path, text with
  | true, some text => (Command.exec umask fs (.write path text)).getD fs
  | _, _ => fs

/-- A run of `pin -t MyPinTool.so -- original`. -/
def toolRun (umask : Umask) (run : Run) (ending : Ending) (original : Path) (fs : FileSystem) :
    FileSystem :=
  match run.execute original (readRegular fs) with
  | .error _ => fs
  | .ok files =>
      let jump := resultPath false original
      let call := resultPath true original
      match ending with
      | .complete =>
          saveText umask run.access call (files call)
            (saveText umask run.access jump (files jump) fs)
      | .killedInJumps count =>
          saveText umask run.access jump ((files jump).map (List.take count)) fs
      | .killedInCalls count =>
          saveText umask run.access call ((files call).map (List.take count))
            (saveText umask run.access jump (files jump) fs)

/-- Nothing or a regular file is at the path. -/
def Plain (fs : FileSystem) (path : Path) : Prop :=
  fs path = none ∨ ∃ content mode, fs path = some (.file content mode)

/-- The content of a result file that was saved or cut off while it was. -/
structure ResultText (allowed : Set (ADDRINT × ADDRINT)) (text : List Char) : Prop where
  pairs : pairsOf (some text) ⊆ allowed
  unmarked : hasLine marker text = false
  noElf : text.head? ≠ some '\x7f'

/-- The path is as before or holds a result file with allowed pairs. -/
def SavedAt (path : Path) (allowed : Set (ADDRINT × ADDRINT)) (fs fs' : FileSystem) : Prop :=
  fs' = fs ∨ ∃ text mode, ResultText allowed text ∧
    fs' = Function.update fs path (some (.file text mode))

theorem resultText_take {allowed : Set (ADDRINT × ADDRINT)} (order : TargetOrder) {m : EdgeMap}
    (hedges : ∀ edge ∈ m.edges, edge ∈ allowed) (count : Nat) :
    ResultText allowed ((edgesText order m).take count) where
  pairs := fun edge hedge => hedges edge (mem_of_mem_pairsOf_take hedge)
  unmarked := by
    have hmarker : '#' ∈ marker := by decide
    apply hasLine_eq_false (by decide) hmarker
    intro h
    exact hash_notMem_edgesText order m (List.mem_of_mem_take h)
  noElf := head_take_edgesText order m count

section Saving

variable {umask : Umask} {access : Access} {fs : FileSystem} {path : Path}

theorem resolve_of_plain (hplain : Plain fs path) : resolve fs path = some path := by
  rcases hplain with hnone | ⟨content, mode, hfile⟩
  · exact resolve_of_free hnone
  · exact resolve_of_file hfile

theorem readRegular_file {content : List Char} {mode : Nat}
    (hfile : fs path = some (.file content mode)) : readRegular fs path = some content := by
  rw [readRegular, lookup_of_file hfile]

theorem readRegular_none (hnone : fs path = none) : readRegular fs path = none := by
  rw [readRegular, lookup, resolve_of_plain (Or.inl hnone), Option.bind_some, hnone]

theorem isRegular_file {content : List Char} {mode : Nat}
    (hfile : fs path = some (.file content mode)) : isRegular fs path = true := by
  rw [isRegular, lookup, resolve_of_plain (Or.inr ⟨content, mode, hfile⟩), Option.bind_some, hfile]

theorem isRegular_none (hnone : fs path = none) : isRegular fs path = false := by
  rw [isRegular, lookup, resolve_of_plain (Or.inl hnone), Option.bind_some, hnone]

/-- The binary of a result is the executable at its backup path or, when nothing is there,
at its own. -/
theorem binaryOf_of_base {x : Path} {bytes : List Char} {mode : Nat} (hbase : baseOf path = orig x)
    (hfile : fs (orig x) = some (.file bytes mode) ∨
      fs (orig x) = none ∧ fs x = some (.file bytes mode)) :
    binaryOf fs path = if fs (orig x) = none then x else orig x := by
  unfold binaryOf
  simp only
  rw [hbase, stripOrig_orig]
  rcases hfile with hbackup | ⟨hnone, hself⟩
  · rw [if_neg fun h => h.1 (isRegular_file hbackup), if_neg (by rw [hbackup]; simp)]
  · have hbackup : ¬ isRegular fs (orig x) = true := by
      rw [isRegular_none hnone]
      exact Bool.false_ne_true
    rw [if_pos ⟨hbackup, isSuffixOf_orig x, isRegular_file hself⟩, if_pos hnone]

theorem savedAt_saveText {allowed : Set (ADDRINT × ADDRINT)} (hplain : Plain fs path)
    {text : Option (List Char)}
    (htext : access.writable path = true → ∀ t, text = some t → ResultText allowed t) :
    SavedAt path allowed fs (saveText umask access path text fs) := by
  unfold saveText
  split
  · rename_i text hwritable
    right
    rcases hplain with hnone | ⟨content, mode, hfile⟩
    · refine ⟨text, umask.createMode, htext hwritable text rfl, ?_⟩
      rw [exec_write_free umask text hnone, Option.getD_some]
    · refine ⟨text, mode, htext hwritable text rfl, ?_⟩
      have hresolve : resolve fs path = some path := resolve_of_plain (Or.inr ⟨_, _, hfile⟩)
      simp [Command.exec, hresolve, hfile]
  · exact Or.inl rfl

theorem SavedAt.plain_of_ne {allowed : Set (ADDRINT × ADDRINT)} {fs' : FileSystem} {other : Path}
    (h : SavedAt path allowed fs fs') (hne : other ≠ path) (hplain : Plain fs other) :
    Plain fs' other := by
  rcases h with rfl | ⟨text, mode, _, rfl⟩
  · exact hplain
  · unfold Plain
    rw [Function.update_of_ne hne]
    exact hplain

theorem resultPath_ne (original : Path) : resultPath true original ≠ resultPath false original :=
  (ijumpPath_ne_icallPath original).symm

/-- The pairs that a process may leave in a result file. -/
def allowedPairs (fs : FileSystem) (run : Run) (original : Path) (kind : Bool) :
    Set (ADDRINT × ADDRINT) :=
  {edge | run.Observes kind edge ∨ edge ∈ pairsOf (readRegular fs (resultPath kind original))}

/-- A process changes the two result files, one after the other, and nothing else. -/
theorem toolRun_saves (umask : Umask) (run : Run) (ending : Ending) {original : Path}
    (hplain : ∀ kind, Plain fs (resultPath kind original)) :
    ∃ middle, SavedAt (resultPath false original) (allowedPairs fs run original false) fs middle ∧
      SavedAt (resultPath true original) (allowedPairs fs run original true) middle
        (toolRun umask run ending original fs) := by
  unfold toolRun
  split
  · exact ⟨fs, Or.inl rfl, Or.inl rfl⟩
  · rename_i files hexec
    have hwhole : ∀ kind, run.access.writable (resultPath kind original) = true → ∀ text,
        files (resultPath kind original) = some text →
          ResultText (allowedPairs fs run original kind) text := by
      intro kind hwritable text htext
      obtain ⟨order, m, hfile, hedges⟩ := execute_saves hexec kind hwritable
      rw [hfile] at htext
      obtain rfl := Option.some.inj htext
      have hall := resultText_take order hedges (edgesText order m).length
      rw [List.take_length] at hall
      exact hall
    have hcut : ∀ kind count, run.access.writable (resultPath kind original) = true → ∀ text,
        (files (resultPath kind original)).map (List.take count) = some text →
          ResultText (allowedPairs fs run original kind) text := by
      intro kind count hwritable text htext
      obtain ⟨order, m, hfile, hedges⟩ := execute_saves hexec kind hwritable
      rw [hfile, Option.map_some] at htext
      obtain rfl := Option.some.inj htext
      exact resultText_take order hedges count
    have hjump : SavedAt (resultPath false original) (allowedPairs fs run original false) fs
        (saveText umask run.access (resultPath false original)
          (files (resultPath false original)) fs) := savedAt_saveText (hplain false) (hwhole false)
    have hcall := hjump.plain_of_ne (resultPath_ne original) (hplain true)
    cases ending with
    | complete => exact ⟨_, hjump, savedAt_saveText hcall (hwhole true)⟩
    | killedInJumps count => exact ⟨_, savedAt_saveText (hplain false) (hcut false count), Or.inl rfl⟩
    | killedInCalls count => exact ⟨_, hjump, savedAt_saveText hcall (hcut true count)⟩

end Saving

end Icflow.Collect
