import Icflow.Collect.Package
import Icflow.Foundation.JobPool
import Mathlib.Data.Finset.Erase
import Mathlib.Data.Finset.Insert

set_option autoImplicit false

/-!
# The jobs of `buildall_timeout.sh`

`clone_package` and `build_package` run in the background over the files of
`ARCH_PACKAGES_ROOT` and the directories of the section (`Store`).  Each is a relation
between a phase and the next; a step reads or writes one file, so that the steps of
several jobs may come in any order.

The clock, `git`, `makepkg` and what `find`, `file` and `objdump` pick are left open.
Writing to the files is taken to succeed, and a redirection replaces a file at once.
-/

namespace Icflow.Static

open Icflow.Foundation Icflow.Collect

/-- The settings of a run. -/
structure Config where
  machine : Machine
  maxJobs : Nat
  cloneRateLimit : Nat

/-- A file below `ELF_OUTPUT_DIR`. -/
structure Elf where
  directory : PackageName
  name : List Char
  deriving DecidableEq

/-- A line of `elf_map.txt`. -/
structure MapLine where
  exe : List Char
  elf : Elf
  deriving DecidableEq

/-- A line of `build_summary.log`. -/
inductive Summary where
  | cloneSuccess (name : PackageName)
  | cloneRateLimited (name : PackageName)
  | cloneFailed (name : PackageName) (url : Url)
  | buildSuccess (name : PackageName)
  | buildFailed (name : PackageName)
  deriving DecidableEq

/-- What the jobs and the runs share. -/
structure Store where
  /-- the lines of `processed_urls.txt` -/
  progress : List Url
  /-- the directories below that of the section -/
  directories : Finset PackageName
  /-- `clone_counter.txt`; a missing file counts for zero -/
  counter : Option Nat
  /-- `clone_timestamp.txt` -/
  timestamp : Option Int
  buildLog : List Summary
  /-- the files below `elf_outputs` -/
  elves : Finset Elf
  /-- the lines of `elf_map.txt` -/
  elfMap : List MapLine

/-- What can be seen of a run. -/
inductive Event where
  | cloneStarted (url : Url)
  | buildStarted (url : Url)
  /-- the timestamp of the rate limit is written anew -/
  | windowReset
  /-- `enforce_clone_rate_limit` returns -/
  | passed (url : Url)
  /-- `git clone` succeeds -/
  | cloned (url : Url)
  /-- `build_package` has built the directory, or failed to, and ends -/
  | built (name : PackageName)
  deriving DecidableEq

/-- The name leads out of the directories of the section. -/
def climbs (name : PackageName) : Bool := name == ".".toList || name == "..".toList

/-- `[ -d "$pkg_dir" ]` -/
def present (s : Store) (name : PackageName) : Bool :=
  climbs name || name == "/".toList || decide (name ∈ s.directories)

section Clone

/-- The length of the window, in seconds. -/
def windowLength : Int := 60

/-- `max_retries` -/
def maxRetries : Nat := 3

/-- How far a call of `clone_package` has come, with its copy of `CLONE_COUNTER`. -/
inductive ClonePhase where
  | entered
  | timed (elapsed : Int)
  | counted (elapsed : Int) (counter : Nat)
  | resetting
  | allowed (counter : Nat)
  /-- in the loop; `made` tells whether this attempt has made the directory -/
  | cloning (counter retries : Nat) (made : Bool)
  | unrecorded (counter : Nat)
  | recorded (counter : Nat)
  deriving DecidableEq

/-- A call of `clone_package`. -/
structure CloneJob where
  url : Url
  phase : ClonePhase
  deriving DecidableEq

/-- After a failed `git clone`, which removes the directory it has made unless it cannot. -/
def abandoned (name : PackageName) (removes : Bool) (s : Store) : Store :=
  if removes then { s with directories := s.directories.erase name } else s

/-- One step of `clone_package`. -/
inductive CloneStep (config : Config) :
    Store → CloneJob → List Event → Store → Option CloneJob → Prop where
  | readTimestamp (s : Store) (url : Url) (now : Int) :
      CloneStep config s ⟨url, .entered⟩ [] s
        (some ⟨url, .timed (now - s.timestamp.getD 0)⟩)
  | readCounter (s : Store) (url : Url) (elapsed : Int) :
      CloneStep config s ⟨url, .timed elapsed⟩ [] s
        (some ⟨url, .counted elapsed (s.counter.getD 0)⟩)
  -- a minute has passed, or the limit is reached and the job sleeps until then
  | zero (s : Store) (url : Url) (elapsed : Int) (counter : Nat)
      (hfull : windowLength ≤ elapsed ∨ config.cloneRateLimit ≤ counter) :
      CloneStep config s ⟨url, .counted elapsed counter⟩ [] { s with counter := some 0 }
        (some ⟨url, .resetting⟩)
  | reset (s : Store) (url : Url) (now : Int) :
      CloneStep config s ⟨url, .resetting⟩ [.windowReset] { s with timestamp := some now }
        (some ⟨url, .allowed 0⟩)
  | keep (s : Store) (url : Url) (elapsed : Int) (counter : Nat)
      (hrecent : elapsed < windowLength) (hfree : counter < config.cloneRateLimit) :
      CloneStep config s ⟨url, .counted elapsed counter⟩ [] s (some ⟨url, .allowed counter⟩)
  | pass (s : Store) (url : Url) (counter : Nat) :
      CloneStep config s ⟨url, .allowed counter⟩ [.passed url] s
        (some ⟨url, .cloning counter 0 false⟩)
  | make (s : Store) (url : Url) (counter retries : Nat)
      (habsent : packageName config.machine url ∉ s.directories) :
      CloneStep config s ⟨url, .cloning counter retries false⟩ []
        { s with directories := insert (packageName config.machine url) s.directories }
        (some ⟨url, .cloning counter retries true⟩)
  -- `git clone` clones nothing when the URL is an option to it
  | succeed (s : Store) (url : Url) (counter retries : Nat) (made : Bool)
      (hurl : isOption url = false) :
      CloneStep config s ⟨url, .cloning counter retries made⟩ [.cloned url]
        { s with
          directories := insert (packageName config.machine url) s.directories
          buildLog := s.buildLog ++ [.cloneSuccess (packageName config.machine url)] }
        (some ⟨url, .unrecorded counter⟩)
  -- the output of `git` has `HTTP 429`
  | retry (s : Store) (url : Url) (counter retries : Nat) (made removes : Bool)
      (hremoves : removes = true → made = true) (hretries : retries + 1 < maxRetries) :
      CloneStep config s ⟨url, .cloning counter retries made⟩ []
        (abandoned (packageName config.machine url) removes s)
        (some ⟨url, .cloning counter (retries + 1) false⟩)
  | giveUp (s : Store) (url : Url) (counter retries : Nat) (made removes : Bool)
      (hremoves : removes = true → made = true) (hretries : maxRetries ≤ retries + 1) :
      CloneStep config s ⟨url, .cloning counter retries made⟩ []
        { abandoned (packageName config.machine url) removes s with
          buildLog := s.buildLog ++ [.cloneRateLimited (packageName config.machine url)] }
        (some ⟨url, .unrecorded counter⟩)
  | fail (s : Store) (url : Url) (counter retries : Nat) (made removes : Bool)
      (hremoves : removes = true → made = true) :
      CloneStep config s ⟨url, .cloning counter retries made⟩ []
        { abandoned (packageName config.machine url) removes s with
          buildLog := s.buildLog ++ [.cloneFailed (packageName config.machine url) url] }
        (some ⟨url, .unrecorded counter⟩)
  | record (s : Store) (url : Url) (counter : Nat) :
      CloneStep config s ⟨url, .unrecorded counter⟩ []
        { s with progress := s.progress ++ echoed url } (some ⟨url, .recorded counter⟩)
  | increment (s : Store) (url : Url) (counter : Nat) :
      CloneStep config s ⟨url, .recorded counter⟩ [] { s with counter := some (counter + 1) } none

/-- The clone phase of a batch. -/
def clonePhase (config : Config) : JobPool.Program Store Url CloneJob Event where
  present := fun _ _ => True
  spawn := fun url => ⟨url, .entered⟩
  launch := .cloneStarted
  work := CloneStep config

end Clone

section Build

/-- How far a call of `build_package` has come. -/
inductive BuildPhase where
  | starting
  | building
  /-- the executables that `find` reports and the loop has not read -/
  | copying (exes : List (List Char))
  | picked (exe : List Char) (elf : Elf) (exes : List (List Char))
  | copied (exe : List Char) (elf : Elf) (exes : List (List Char))
  | cleaning
  deriving DecidableEq

/-- A call of `build_package`, with the URL whose directory it is given. -/
structure BuildJob where
  url : Url
  phase : BuildPhase
  deriving DecidableEq

/-- The directory below `ELF_OUTPUT_DIR`. -/
def outDirectory (name : PackageName) : PackageName :=
  if name = ".".toList ∨ name = "/".toList then [] else name

/-- The names that `dest` takes one after the other. -/
def candidate (baseName : List Char) (i : Nat) : List Char :=
  if i = 0 then baseName else baseName ++ '_' :: Nat.toDigits 10 i

/-- `rm -rf "$full_path"`, where `realpath` prints nothing for an option. -/
def cleaned (name : PackageName) (s : Store) : Store :=
  if isOption name then s
  else if climbs name then { s with directories := ∅ }
  else { s with directories := s.directories.erase name }

/-- One step of `build_package`. -/
inductive BuildStep (config : Config) :
    Store → BuildJob → List Event → Store → Option BuildJob → Prop where
  | enter (s : Store) (url : Url)
      (hthere : present s (packageName config.machine url) = true ∨
        isOption (packageName config.machine url) = true) :
      BuildStep config s ⟨url, .starting⟩ [] s (some ⟨url, .building⟩)
  -- `cd "$full_path" || return`
  | refuse (s : Store) (url : Url)
      (habsent : present s (packageName config.machine url) = false)
      (hname : isOption (packageName config.machine url) = false) :
      BuildStep config s ⟨url, .starting⟩ [] s none
  -- in the directory of the section there is nothing to build
  | succeed (s : Store) (url : Url) (exes : List (List Char))
      (hname : isOption (packageName config.machine url) = false) :
      BuildStep config s ⟨url, .building⟩ []
        { s with buildLog := s.buildLog ++ [.buildSuccess (packageName config.machine url)] }
        (some ⟨url, .copying exes⟩)
  | fail (s : Store) (url : Url) :
      BuildStep config s ⟨url, .building⟩ []
        { s with buildLog := s.buildLog ++ [.buildFailed (packageName config.machine url)] }
        (some ⟨url, .cleaning⟩)
  | pick (s : Store) (url : Url) (exe : List Char) (exes : List (List Char)) (i : Nat) (elf : Elf)
      (helf : elf = ⟨outDirectory (packageName config.machine url), candidate (filename exe) i⟩)
      (hfree : elf ∉ s.elves)
      (htaken : ∀ j < i,
        ⟨outDirectory (packageName config.machine url), candidate (filename exe) j⟩ ∈ s.elves) :
      BuildStep config s ⟨url, .copying (exe :: exes)⟩ [] s (some ⟨url, .picked exe elf exes⟩)
  | copy (s : Store) (url : Url) (exe : List Char) (elf : Elf) (exes : List (List Char)) :
      BuildStep config s ⟨url, .picked exe elf exes⟩ [] { s with elves := insert elf s.elves }
        (some ⟨url, .copied exe elf exes⟩)
  | map (s : Store) (url : Url) (exe : List Char) (elf : Elf) (exes : List (List Char)) :
      BuildStep config s ⟨url, .copied exe elf exes⟩ []
        { s with elfMap := s.elfMap ++ [⟨exe, elf⟩] } (some ⟨url, .copying exes⟩)
  | finish (s : Store) (url : Url) :
      BuildStep config s ⟨url, .copying []⟩ [] s (some ⟨url, .cleaning⟩)
  | clean (s : Store) (url : Url) :
      BuildStep config s ⟨url, .cleaning⟩ [.built (packageName config.machine url)]
        (cleaned (packageName config.machine url) s) none

/-- The build phase of a batch. -/
def buildPhase (config : Config) : JobPool.Program Store Url BuildJob Event where
  present := fun s url => present s (packageName config.machine url) = true
  spawn := fun url => ⟨url, .starting⟩
  launch := .buildStarted
  work := BuildStep config

end Build

end Icflow.Static
