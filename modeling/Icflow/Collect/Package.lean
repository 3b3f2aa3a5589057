import Icflow.Foundation.LineFile
import Icflow.Foundation.Path
import Mathlib.Logic.Function.Basic

set_option autoImplicit false

/-!
# `process_package`

`Commands` are the outcomes of the commands that one call of `process_package` runs:
what they answer and how many bytes they read from the input they inherit.
`processPackage` is the function itself, on the files it shares with other calls.

The errexit option is suspended inside `if ! process_package "$url"`, so only the tests
of the function end it early.  Appending to the bookkeeping files is taken to succeed.
-/

namespace Icflow.Collect

open Icflow.Foundation

/-- A line of the URL list. -/
abbrev Url := List Char

/-- A directory below `WORK_ROOT` and `OUTPUT_ROOT`. -/
abbrev PackageName := List Char

/-- What the machine decides. -/
structure Machine where
  /-- the characters of `[[:space:]]` in the locale, each as its bytes -/
  blanks : List (List Char)
  /-- what `basename` prints for an operand it takes for an option -/
  basenameOption : Url → List Char

/-- What the commands of one iteration of the main loop do. -/
structure Commands where
  /-- `grep` finds something when the URL is an option to it -/
  grepFinds : Bool
  grepReads : Nat
  /-- the pipeline of `git clone` succeeds -/
  cloneSucceeds : Bool
  /-- one that fails leaves a `.git` directory behind -/
  cloneLeaves : Bool
  cloneReads : Nat
  hasPkgbuild : Bool
  /-- the pipeline of the first `makepkg` succeeds -/
  buildSucceeds : Bool
  buildReads : Nat
  hasSource : Bool
  testReads : Nat
  /-- `wrapped-executions.tsv` is not empty after the tests -/
  executed : Bool
  deriving DecidableEq

/-- The files that calls of `process_package` share. -/
structure Collection where
  /-- `processed_urls.txt` -/
  processed : LineFile
  /-- the lines appended to `failed_urls.txt` since the start -/
  failed : List Url
  failures : Nat
  /-- where the checkout in a directory below `WORK_ROOT` was cloned from -/
  checkouts : PackageName → Option Url
  /-- the calls that built and tested a package, with the origin of the checkout -/
  built : List (Url × Url)
  /-- the calls that wrote the execution log and the artifacts of a directory -/
  written : List (PackageName × Url)

/-- The word is taken for an option by a command it is the first operand of. -/
def isOption (url : Url) : Bool := url.head? == some '-'

/-- The word is an option of the shell's own `echo`. -/
def isEchoOption (url : Url) : Bool :=
  match url with
  | '-' :: flags => flags ≠ [] && flags.all fun flag => flag == 'n' || flag == 'e' || flag == 'E'
  | _ => false

/-- The lines that `echo "$url" >> file` appends. -/
def echoed (url : Url) : List Url :=
  if isEchoOption url then if 'n' ∈ url then [] else [[]] else [url]

/-- The path without its trailing separators. -/
def trimSlashes (path : List Char) : List Char := (path.reverse.dropWhile (· == '/')).reverse

/-- `basename "$url" .git`. -/
def packageName (machine : Machine) (url : Url) : PackageName :=
  if isOption url then machine.basenameOption url
  else if url.all (· == '/') then url.take 1
  else
    let name := filename (trimSlashes url)
    if ".git".toList.isSuffixOf name ∧ name ≠ ".git".toList then
      name.take (name.length - ".git".toList.length)
    else name

/-- The directory that a package name leads to below a root. -/
def packageDirectory (machine : Machine) (url : Url) : PackageName :=
  let name := packageName machine url
  if name = ".".toList ∨ name = "/".toList then [] else name

/-- The result of a call. -/
structure PackageResult where
  collection : Collection
  succeeds : Bool
  /-- the bytes the commands have read from the inherited input -/
  reads : Nat

/-- `process_package`. -/
def processPackage (machine : Machine) (commands : Commands) (url : Url) (s : Collection) :
    PackageResult :=
  let directory := packageDirectory machine url
  let cloneReads := if s.checkouts directory = none then commands.cloneReads else 0
  if s.checkouts directory = none ∧ ¬ commands.cloneSucceeds then
    let checkouts :=
      if commands.cloneLeaves then Function.update s.checkouts directory (some url)
      else s.checkouts
    { collection := { s with checkouts := checkouts }
      succeeds := false
      reads := cloneReads }
  else
    let origin := (s.checkouts directory).getD url
    let cloned := { s with checkouts := Function.update s.checkouts directory (some origin) }
    if ¬ commands.hasPkgbuild then
      { collection := cloned, succeeds := false, reads := cloneReads }
    else if ¬ commands.buildSucceeds ∨ ¬ commands.hasSource then
      { collection := cloned, succeeds := false, reads := cloneReads + commands.buildReads }
    else
      let tested :=
        { cloned with
          built := cloned.built ++ [(url, origin)]
          written := cloned.written ++ [(directory, url)] }
      let reads := cloneReads + commands.buildReads + commands.testReads
      -- a failed or timed-out test run is reported, and its results are collected
      if ¬ commands.executed then { collection := tested, succeeds := false, reads := reads }
      else
        { collection := { tested with processed := tested.processed.appendAll (echoed url) }
          succeeds := true
          reads := reads }

end Icflow.Collect
