import Icflow.Collect.Ready
import Icflow.Wrap.Reversible

set_option autoImplicit false

/-!
# Attempts on one package

An attempt wraps the tree that the build has left, runs the tests, restores, and may be
stopped anywhere in between; `collect_artifacts` copies from what it then finds.  Result
files stay in the tree for the next attempt.
-/

namespace Icflow.Collect

open Icflow.Foundation
open Icflow.Wrap
open Icflow.PinTool

/-- Which pairs of a kind have been observed in runs of an ELF file with these bytes. -/
abbrev Observations := List Char → Bool → ADDRINT × ADDRINT → Prop

/-- No run has taken place. -/
def Observations.none : Observations := fun _ _ _ => False

/-- One more run. -/
def Observations.add (observed : Observations) (bytes : List Char) (run : Run) : Observations :=
  fun bytes' kind edge => observed bytes' kind edge ∨ (bytes' = bytes ∧ run.Observes kind edge)

/-! ## Attempts -/

section Attempts

variable (host : Host) (root : Path)

/-- The states of the tests between wrapping and restoring.  A wrapper runs the tool on the
backup it names, whose bytes are then the executed ones. -/
inductive TestPhase (setup : Setup) (tree : FileSystem) (observed : Observations) :
    FileSystem → Observations → Prop where
  | wrapped (fs : FileSystem)
      (hrun : FeedLoop.Completes (wrapScript host setup root) tree fs) :
      TestPhase setup tree observed fs observed
  | run (fs : FileSystem) (observed' : Observations) (x : Path) (wrapperSetup : Setup)
      (wrapperMode mode : Nat) (bytes : List Char) (run : Run) (ending : Ending)
      (h : TestPhase setup tree observed fs observed') (hin : inTree root x = true)
      (hwrapper : fs x = some (.file (wrapperText host wrapperSetup (orig x)) wrapperMode))
      (hbinary : fs (orig x) = some (.file bytes mode)) :
      TestPhase setup tree observed (toolRun host.umask run ending (orig x) fs)
        (observed'.add bytes run)

/-- The states in which the instrumented `makepkg` ends or is stopped. -/
inductive Instrumented (setup : Setup) (tree : FileSystem) (observed : Observations) :
    FileSystem → Observations → Prop where
  | whileWrapping (s : FeedLoop.State FileSystem Path Command)
      (hreach : FeedLoop.Reachable (wrapScript host setup root) tree s) :
      Instrumented setup tree observed s.store observed
  | whileTesting (fs : FileSystem) (observed' : Observations)
      (h : TestPhase host root setup tree observed fs observed') :
      Instrumented setup tree observed fs observed'
  | whileRestoring (fs : FileSystem) (observed' : Observations)
      (s : FeedLoop.State FileSystem Path Command)
      (h : TestPhase host root setup tree observed fs observed')
      (hreach : FeedLoop.Reachable (restoreScript host root) fs s) :
      Instrumented setup tree observed s.store observed'

/-- What happens between two instrumented runs: the restore of the first attempt and
whatever the second one builds.  Result files stay or are removed; the package has none
of its own. -/
def Rebuilt (fs tree : FileSystem) : Prop :=
  ∀ path, (resultKind path).isSome = true → tree path = fs path ∨ tree path = none

/-- The trees that `collect_artifacts` finds in a sequence of attempts on one package. -/
inductive Attempts : FileSystem → Observations → Prop where
  | start : Attempts (fun _ => none) .none
  | attempt (setup : Setup) (fs tree fs' : FileSystem) (observed observed' : Observations)
      (h : Attempts fs observed) (hbuilt : Rebuilt fs tree)
      (hrun : Instrumented host root setup tree observed fs' observed') :
      Attempts fs' observed'

end Attempts

/-- Every pair in a copied result was observed in a run of the bytes copied with it. -/
def Published (root : Path) (fs : FileSystem) (observed : Observations) : Prop :=
  ∀ repositoryDir packageOutput path artifact kind, Collected root fs path →
    artifactOf repositoryDir packageOutput fs path = some artifact →
    resultKind path = some kind → ∀ edge ∈ pairsOf (some artifact.result.content),
      ∃ copy, artifact.binary = some copy ∧ observed copy.content kind edge

/-- The executable whose backup name is `original` has these bytes. -/
def HasElf (fs : FileSystem) (original : Path) (bytes : List Char) : Prop :=
  ∃ x mode, original = orig x ∧ ".orig".toList.isSuffixOf x = false ∧ resultKind x = none ∧
    (fs (orig x) = some (.file bytes mode) ∨
      fs (orig x) = none ∧ fs x = some (.file bytes mode))

/-- The build has changed no executable whose result files hold pairs. -/
def KeepsElf (fs tree : FileSystem) : Prop :=
  ∀ path content mode, (resultKind path).isSome = true →
    tree path = some (.file content mode) → (pairsOf (some content)).Nonempty →
      ∀ bytes, HasElf fs (baseOf path) bytes → HasElf tree (baseOf path) bytes

/-- Attempts on ready trees, possibly with files still wrapped, whose builds change no
executable whose result files hold pairs. -/
inductive SettledAttempts (host : Host) (root : Path) : FileSystem → Observations → Prop where
  | start : SettledAttempts host root (fun _ => none) .none
  | attempt (setup : Setup) (fs tree fs' T : FileSystem) (W : Set Path)
      (observed observed' : Observations) (h : SettledAttempts host root fs observed)
      (hbuilt : Rebuilt fs tree) (hkept : KeepsElf fs tree) (hready : Ready host root T)
      (hoverlay : Overlay host root T W tree)
      (hrun : Instrumented host root setup tree observed fs' observed') :
      SettledAttempts host root fs' observed'

section Genuine

variable {host : Host} {root : Path} {T fs : FileSystem} {W : Set Path} {observed : Observations}

/-- Every pair in a result file was observed in a run of the executable it is kept for. -/
def Genuine (fs : FileSystem) (observed : Observations) : Prop :=
  ∀ path kind content mode, resultKind path = some kind → fs path = some (.file content mode) →
    ∀ edge ∈ pairsOf (some content),
      ∃ bytes, HasElf fs (baseOf path) bytes ∧ observed bytes kind edge

/-! ## What is collected -/

/-- `collect_artifacts` finds the executable, wrapped or restored. -/
theorem readRegular_binaryOf {path : Path} {bytes : List Char} (h : HasElf fs (baseOf path) bytes) :
    readRegular fs (binaryOf fs path) = some bytes := by
  obtain ⟨x, mode, hbase, _, _, hfile⟩ := h
  rw [binaryOf_of_base hbase hfile]
  rcases hfile with hbackup | ⟨hnone, hself⟩
  · rw [if_neg (by rw [hbackup]; simp)]
    exact readRegular_file hbackup
  · rw [if_pos hnone]
    exact readRegular_file hself

/-- What is copied when the executable of a result file is at hand. -/
theorem artifactOf_of_hasElf (repositoryDir packageOutput : Path) {path : Path}
    {text bytes : List Char} {mode : Nat} (hfile : fs path = some (.file text mode))
    (helf : HasElf fs (baseOf path) bytes) :
    ∃ artifact, artifactOf repositoryDir packageOutput fs path = some artifact ∧
      artifact.result.content = text ∧
      ∃ copy, artifact.binary = some copy ∧ copy.content = bytes := by
  unfold artifactOf
  rw [readRegular_file hfile]
  refine ⟨_, rfl, rfl, ⟨destination repositoryDir packageOutput (binaryOf fs path), bytes⟩, ?_, rfl⟩
  rw [readRegular_binaryOf helf, Option.map_some]

theorem Genuine.published (h : Genuine fs observed) (root : Path) : Published root fs observed := by
  intro repositoryDir packageOutput path artifact kind hcollected hartifact hkind edge hedge
  obtain ⟨_, _, text, mode, hfile, _⟩ := hcollected
  have htext : artifact.result.content = text := by
    unfold artifactOf at hartifact
    rw [readRegular_file hfile] at hartifact
    obtain rfl := Option.some.inj hartifact
    rfl
  rw [htext] at hedge
  obtain ⟨bytes, helf, hobserved⟩ := h path kind text mode hkind hfile edge hedge
  obtain ⟨artifact', hartifact', _, copy, hcopy, hbytes⟩ :=
    artifactOf_of_hasElf repositoryDir packageOutput hfile helf
  obtain rfl : artifact' = artifact := Option.some.inj (hartifact'.symm.trans hartifact)
  exact ⟨copy, hcopy, hbytes ▸ hobserved⟩

end Genuine

end Icflow.Collect
