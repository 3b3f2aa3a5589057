import Icflow.Foundation.Path
import Mathlib.Logic.Function.Basic

set_option autoImplicit false

/-!
# The file system the two scripts work on

A file system maps canonical paths to objects.  A symbolic link holds the path its text
resolves to when every component but the last is followed; what is at that path is
looked up when the link is used.

The commands are those the scripts run, on the operands they are run on: `mv` moves a
regular file, and follows its destination only to see whether it is a directory.
-/

namespace Icflow.Wrap

open Icflow.Foundation

/-- A canonical path. -/
abbrev Path := List Char

/-- An object of the file system. -/
inductive Node where
  | file (content : List Char) (mode : Nat)
  | directory
  | symlink (target : Path)
  /-- a socket, a device or a pipe -/
  | special
  deriving DecidableEq

/-- The objects by path. -/
abbrev FileSystem := Path → Option Node

/-- The number of links a look-up follows. -/
def linkLimit : Nat := 40

/-- The path a chain of links ends at; `none` when it is too long. -/
def followLinks (fs : FileSystem) : Nat → Path → Option Path
  | 0, _ => none
  | limit + 1, path =>
      match fs path with
      | some (.symlink target) => followLinks fs limit target
      | _ => some path

/-- Where a path leads when its last component is followed too. -/
def resolve (fs : FileSystem) (path : Path) : Option Path := followLinks fs linkLimit path

/-- The object a path leads to. -/
def lookup (fs : FileSystem) (path : Path) : Option Node := (resolve fs path).bind fs

/-- `[[ -f path ]]`. -/
def isRegular (fs : FileSystem) (path : Path) : Bool :=
  match lookup fs path with
  | some (.file _ _) => true
  | _ => false

/-- The commands of the two scripts. -/
inductive Command where
  | mv (source destination : Path)
  /-- `{ … } > path` -/
  | write (path : Path) (text : List Char)
  /-- `chmod +x` -/
  | chmodExecutable (path : Path)
  /-- `rm -f` -/
  | rm (path : Path)
  /-- what `mkdir -p` does for one directory on the way -/
  | mkdir (path : Path)
  | touch (path : Path)
  deriving DecidableEq

/-- The permissions a new file gets, and what `chmod +x` makes of a mode. -/
structure Umask where
  createMode : Nat
  addExecute : Nat → Nat

/-- The destination of a move: inside it, when it is a directory. -/
def moveTarget (fs : FileSystem) (source destination : Path) : Path :=
  match resolve fs destination with
  | some directory =>
      if fs directory = some .directory then directory ++ '/' :: filename source else destination
  | none => destination

/-- One command; `none` is a failure that leaves the file system alone. -/
def Command.exec (umask : Umask) (fs : FileSystem) : Command → Option FileSystem
  | .mv source destination =>
      match fs source with
      | none => none
      | some node =>
          let target := moveTarget fs source destination
          if fs target = some .directory then none
          else some (Function.update (Function.update fs source none) target (some node))
  | .write path text =>
      match resolve fs path with
      | none => none
      | some target =>
          match fs target with
          | none => some (Function.update fs target (some (.file text umask.createMode)))
          | some (.file _ mode) => some (Function.update fs target (some (.file text mode)))
          | some .special => some fs
          | some _ => none
  | .chmodExecutable path =>
      match resolve fs path with
      | none => none
      | some target =>
          match fs target with
          | some (.file content mode) =>
              some (Function.update fs target (some (.file content (umask.addExecute mode))))
          | some _ => some fs
          | none => none
  | .rm path =>
      match fs path with
      | some .directory => none
      | _ => some (Function.update fs path none)
  | .mkdir path =>
      match fs path with
      | none => some (Function.update fs path (some .directory))
      | some _ => if lookup fs path = some .directory then some fs else none
  | .touch path =>
      match resolve fs path with
      | none => none
      | some target =>
          match fs target with
          | none => some (Function.update fs target (some (.file [] umask.createMode)))
          | some _ => some fs

/-- Commands one after the other, up to one that fails. -/
def runAll (umask : Umask) (commands : List Command) (fs : FileSystem) : Option FileSystem :=
  commands.foldlM (fun fs command => command.exec umask fs) fs

/-! ## Commands on plain paths -/

theorem resolve_of_not_symlink {fs : FileSystem} {path : Path}
    (h : ∀ target, fs path ≠ some (.symlink target)) : resolve fs path = some path := by
  unfold resolve linkLimit followLinks
  split
  · rename_i target htarget
    exact absurd htarget (h target)
  · rfl

theorem resolve_of_free {fs : FileSystem} {path : Path} (h : fs path = none) :
    resolve fs path = some path := by
  apply resolve_of_not_symlink
  intro target htarget
  rw [h] at htarget
  cases htarget

theorem resolve_of_file {fs : FileSystem} {path : Path} {content : List Char} {mode : Nat}
    (h : fs path = some (.file content mode)) : resolve fs path = some path := by
  apply resolve_of_not_symlink
  intro target htarget
  rw [h] at htarget
  cases htarget

theorem lookup_of_free {fs : FileSystem} {path : Path} (h : fs path = none) :
    lookup fs path = none := by
  rw [lookup, resolve_of_free h, Option.bind_some, h]

theorem lookup_of_file {fs : FileSystem} {path : Path} {content : List Char} {mode : Nat}
    (h : fs path = some (.file content mode)) : lookup fs path = some (.file content mode) := by
  rw [lookup, resolve_of_file h, Option.bind_some, h]

theorem isRegular_of_free {fs : FileSystem} {path : Path} (h : fs path = none) :
    isRegular fs path = false := by
  rw [isRegular, lookup_of_free h]

/-- Two file systems with the same links resolve every path alike. -/
theorem resolve_congr {fs fs' : FileSystem}
    (h : ∀ path target, fs path = some (.symlink target) ↔ fs' path = some (.symlink target)) :
    resolve fs = resolve fs' := by
  have hlimit : ∀ limit path, followLinks fs limit path = followLinks fs' limit path := by
    intro limit
    induction limit with
    | zero => exact fun _ => rfl
    | succ limit ih =>
        intro path
        rw [followLinks, followLinks]
        split
        · rename_i target htarget
          rw [(h path target).mp htarget]
          exact ih target
        · rename_i hnot
          split
          · rename_i target htarget
            exact absurd ((h path target).mpr htarget) (hnot target)
          · rfl
  funext path
  exact hlimit linkLimit path

/-- A move to a free path. -/
theorem exec_mv_free (umask : Umask) {fs : FileSystem} {source destination : Path} {node : Node}
    (hsource : fs source = some node) (hfree : fs destination = none) :
    Command.exec umask fs (.mv source destination) =
      some (Function.update (Function.update fs source none) destination (some node)) := by
  have htarget : moveTarget fs source destination = destination := by
    rw [moveTarget, resolve_of_free hfree]
    simp [hfree]
  simp [Command.exec, hsource, htarget, hfree]

/-- Writing to a free path creates the file. -/
theorem exec_write_free (umask : Umask) {fs : FileSystem} {path : Path} (text : List Char)
    (hfree : fs path = none) :
    Command.exec umask fs (.write path text) =
      some (Function.update fs path (some (.file text umask.createMode))) := by
  simp [Command.exec, resolve_of_free hfree, hfree]

theorem exec_chmod_file (umask : Umask) {fs : FileSystem} {path : Path} {content : List Char}
    {mode : Nat} (hfile : fs path = some (.file content mode)) :
    Command.exec umask fs (.chmodExecutable path) =
      some (Function.update fs path (some (.file content (umask.addExecute mode)))) := by
  simp [Command.exec, resolve_of_file hfile, hfile]

theorem exec_rm_file (umask : Umask) {fs : FileSystem} {path : Path} {content : List Char}
    {mode : Nat} (hfile : fs path = some (.file content mode)) :
    Command.exec umask fs (.rm path) = some (Function.update fs path none) := by
  simp [Command.exec, hfile]

end Icflow.Wrap
