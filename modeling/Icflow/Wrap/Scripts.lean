import Icflow.Foundation.FeedLoop
import Icflow.Foundation.LineFile
import Icflow.Wrap.FileSystem

set_option autoImplicit false

/-!
# `wrap_with_mypintool.sh` and `restore_wrapped_elfs.sh`

Each script is a loop over what `find` reports about the same tree the loop changes.
`Host` is what the machine decides: the descriptions of `file`, permissions, and the
quoting of the shell.  `Setup` are the variables of one invocation of the wrapper, which
makes its log before it starts the loop.
-/

namespace Icflow.Wrap

open Icflow.Foundation

/-- The machine the scripts run on. -/
structure Host where
  /-- `file -b` of a regular file -/
  fileDescription : List Char → Nat → List Char
  /-- `file` calls nothing an ELF file that does not start with the ELF magic. -/
  elf_magic : ∀ content mode, "ELF".toList.isPrefixOf (fileDescription content mode) = true →
    content.head? = some '\x7f'
  /-- `find -executable` for a regular file of this mode -/
  executable : Nat → Bool
  umask : Umask
  /-- `printf %q` -/
  quote : List Char → List Char

/-- The variables of one invocation of `wrap_with_mypintool.sh`. -/
structure Setup where
  pinRoot : Path
  pintool : Path
  wrapLog : Path
  /-- where `wrapLog` leads, when only its last component is not followed -/
  logPath : Path
  /-- `$$` -/
  pid : Nat

/-- `MARKER`. -/
def marker : List Char := "# mypintool-wrapper-v1".toList

/-- `${binary}.orig`. -/
def orig (binary : Path) : Path := binary ++ ".orig".toList

/-- `${binary}.mypintool-wrapper.$$`. -/
def temporaryWrapper (pid : Nat) (binary : Path) : Path :=
  binary ++ ".mypintool-wrapper.".toList ++ Nat.toDigits 10 pid

/-- The first line of a wrapper. -/
def shebang : List Char := "#!/usr/bin/env bash".toList

/-- The text of a wrapper. -/
def wrapperText (host : Host) (setup : Setup) (original : Path) : List Char :=
  shebang ++ '\n' :: (marker ++ '\n' ::
    ("printf \"%s\\t%s\\n\" \"$0\" \"$*\" >> ".toList ++ host.quote setup.wrapLog ++ '\n' ::
      ("exec ".toList ++ host.quote (setup.pinRoot ++ "/pin".toList) ++ " -t ".toList ++
        host.quote setup.pintool ++ " -- ".toList ++ host.quote original ++
        " \"$@\"\n".toList)))

/-- The first three lines of the wrap loop pass over these names. -/
def skippedName (binary : Path) : Bool :=
  ".orig".toList.isSuffixOf binary ||
  (".so".toList.isSuffixOf binary || containsText ".so.".toList binary) ||
  "build_script_-".toList.isPrefixOf (filename binary)

/-- `[[ $file_description == ELF* && $file_description == *executable* ]]`. -/
def describesExecutable (description : List Char) : Bool :=
  "ELF".toList.isPrefixOf description && containsText "executable".toList description

/-- The test on `file -b "$binary"`, which does not follow a link. -/
def isElfExecutable (host : Host) (fs : FileSystem) (binary : Path) : Bool :=
  match fs binary with
  | some (.file content mode) => describesExecutable (host.fileDescription content mode)
  | _ => false

/-- The path lies below the directory. -/
def inTree (root path : Path) : Bool := (root ++ ['/']).isPrefixOf path

/-- The body of the wrap loop: the commands it runs for a reported path. -/
def wrapBody (host : Host) (setup : Setup) (fs : FileSystem) (binary : Path) : List Command :=
  if skippedName binary then []
  else if ¬ isElfExecutable host fs binary then []
  else
    let original := orig binary
    let temporary := temporaryWrapper setup.pid binary
    -- with or without the marker in `binary`, an existing backup ends the iteration
    if isRegular fs original then []
    else
      [.mv binary original,
        .write temporary (wrapperText host setup original),
        .chmodExecutable temporary,
        .mv temporary binary]

/-- The `else` branch of the wrap loop, when the wrapper could not be written. -/
def wrapRecover (setup : Setup) : Command → List Command
  | .write temporary _ =>
      let suffix := (".mypintool-wrapper.".toList ++ Nat.toDigits 10 setup.pid).length
      let binary := temporary.take (temporary.length - suffix)
      [.rm temporary, .mv (orig binary) binary]
  | _ => []

/-- `find TARGET_DIR -type f -executable ! -path '*/pkg/*'`. -/
def wrapMatching (host : Host) (root : Path) (fs : FileSystem) (path : Path) : Prop :=
  inTree root path = true ∧ containsText "/pkg/".toList path = false ∧
    ∃ content mode, fs path = some (.file content mode) ∧ host.executable mode = true

/-- The directories on the way to a path. -/
def ancestors (path : Path) : List Path :=
  path.inits.filter fun front => front ≠ [] && (front ++ ['/']).isPrefixOf path

/-- `mkdir -p "$(dirname "$WRAP_LOG")"` and `touch "$WRAP_LOG"`. -/
def prepareLog (setup : Setup) : List Command :=
  (ancestors setup.logPath).map .mkdir ++ [.touch setup.logPath]

/-- The loop of `wrap_with_mypintool.sh`. -/
def wrapScript (host : Host) (setup : Setup) (root : Path) :
    FeedLoop.Program FileSystem Path Command where
  matching := wrapMatching host root
  body := wrapBody host setup
  exec := fun command fs => command.exec host.umask fs
  recover := wrapRecover setup

/-- The states of a run of `wrap_with_mypintool.sh`: the log is being made, or the loop runs. -/
inductive Wraps (host : Host) (setup : Setup) (root : Path) (fs : FileSystem) :
    FeedLoop.State FileSystem Path Command → Prop where
  | preparing (done rest : List Command) (store : FileSystem)
      (hcommands : prepareLog setup = done ++ rest)
      (hstore : runAll host.umask done fs = some store) :
      Wraps host setup root fs (.start (wrapScript host setup root) store)
  | looping (ready : FileSystem) (s : FeedLoop.State FileSystem Path Command)
      (hready : runAll host.umask (prepareLog setup) fs = some ready)
      (hreach : FeedLoop.Reachable (wrapScript host setup root) ready s) :
      Wraps host setup root fs s

/-- The states it ends in: it cannot make the log, or the loop has ended. -/
inductive WrapEnds (host : Host) (setup : Setup) (root : Path) (fs : FileSystem) :
    FeedLoop.State FileSystem Path Command → Prop where
  | unprepared (done : List Command) (command : Command) (rest : List Command) (store : FileSystem)
      (hcommands : prepareLog setup = done ++ command :: rest)
      (hstore : runAll host.umask done fs = some store)
      (hfails : command.exec host.umask store = none) :
      WrapEnds host setup root fs (.start (wrapScript host setup root) store)
  | looped (ready : FileSystem) (s : FeedLoop.State FileSystem Path Command)
      (hready : runAll host.umask (prepareLog setup) fs = some ready)
      (hreach : FeedLoop.Reachable (wrapScript host setup root) ready s) (hfinished : s.Finished) :
      WrapEnds host setup root fs s

theorem WrapEnds.wraps {host : Host} {setup : Setup} {root : Path} {fs : FileSystem}
    {s : FeedLoop.State FileSystem Path Command} (h : WrapEnds host setup root fs s) :
    Wraps host setup root fs s := by
  cases h with
  | unprepared done command rest store hcommands hstore _ =>
      exact .preparing done (command :: rest) store hcommands hstore
  | looped ready _ hready hreach _ => exact .looping ready s hready hreach

/-- The log has been made and the loop has ended, without a failed command. -/
structure WrapSucceeds (host : Host) (setup : Setup) (root : Path) (fs : FileSystem)
    (s : FeedLoop.State FileSystem Path Command) : Prop where
  ready : ∃ ready, runAll host.umask (prepareLog setup) fs = some ready ∧
    FeedLoop.Reachable (wrapScript host setup root) ready s
  finished : s.Finished
  sound : s.failed = false

/-- `${original%.orig}`. -/
def stripOrig (original : Path) : Path := original.take (original.length - ".orig".toList.length)

/-- `grep -Fqx "$MARKER"` on a path. -/
def bearsMarker (fs : FileSystem) (path : Path) : Bool :=
  match lookup fs path with
  | some (.file content _) => hasLine marker content
  | _ => false

/-- The body of the restore loop. -/
def restoreBody (fs : FileSystem) (original : Path) : List Command :=
  let wrapper := stripOrig original
  if isRegular fs wrapper && bearsMarker fs wrapper then [.rm wrapper, .mv original wrapper]
  else []

/-- `find TARGET_DIR -type f -name '*.orig'`. -/
def restoreMatching (root : Path) (fs : FileSystem) (path : Path) : Prop :=
  inTree root path = true ∧ ".orig".toList.isSuffixOf path = true ∧
    ∃ content mode, fs path = some (.file content mode)

/-- `restore_wrapped_elfs.sh`. -/
def restoreScript (host : Host) (root : Path) : FeedLoop.Program FileSystem Path Command where
  matching := restoreMatching root
  body := restoreBody
  exec := fun command fs => command.exec host.umask fs
  recover := fun _ => []

end Icflow.Wrap
