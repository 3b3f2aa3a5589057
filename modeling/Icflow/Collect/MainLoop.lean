import Icflow.Collect.Package
import Icflow.Foundation.ReadLoop

set_option autoImplicit false

/-!
# The main loop of `collect_dynamic.sh`

The loop reads its list from the input that the commands of `process_package` inherit,
so a line is handed on only if no earlier command has read it.
-/

namespace Icflow.Collect

open Icflow.Foundation

/-- `${url%$'\r'}`. -/
def stripReturn (line : List Char) : Url :=
  if line.getLast? = some '\r' then line.dropLast else line

/-- What is left of a line behind the blanks at its start, of which there are `count` at most. -/
def dropBlanks (blanks : List (List Char)) : Nat → List Char → List Char
  | 0, line => line
  | count + 1, line =>
      match blanks.find? fun blank => blank ≠ [] && blank.isPrefixOf line with
      | none => line
      | some blank => dropBlanks blanks count (line.drop blank.length)

/-- `[[ $url =~ ^[[:space:]]*# ]]`. -/
def isComment (machine : Machine) (url : Url) : Bool :=
  (dropBlanks machine.blanks url.length url).head? == some '#'

/-- Nothing is dropped of a line that begins like no blank. -/
theorem dropBlanks_of_head {blanks : List (List Char)} {c : Char}
    (h : ∀ blank ∈ blanks, blank.head? ≠ some c) (count : Nat) (rest : List Char) :
    dropBlanks blanks count (c :: rest) = c :: rest := by
  cases count with
  | zero => rfl
  | succ count =>
      have hnone : blanks.find? (fun blank => blank ≠ [] && blank.isPrefixOf (c :: rest)) = none := by
        rw [List.find?_eq_none]
        intro blank hblank hstarts
        rw [Bool.and_eq_true, decide_eq_true_eq, List.isPrefixOf_iff_prefix] at hstarts
        obtain ⟨first, others, rfl⟩ := List.exists_cons_of_ne_nil hstarts.1
        obtain ⟨rfl, _⟩ := List.cons_prefix_cons.mp hstarts.2
        exact h _ hblank rfl
      rw [dropBlanks, hnone]

/-- The URL of a line that the loop does not pass over. -/
def urlOf (machine : Machine) (line : List Char) : Option Url :=
  let url := stripReturn line
  if url = [] ∨ isComment machine url then none else some url

/-- The URLs of a list. -/
def listed (machine : Machine) (text : List Char) : List Url :=
  (ReadLoop.readLines text).filterMap (urlOf machine)

/-- The state of the loop: the files, and how many commands have been run. -/
structure LoopState where
  collection : Collection
  iterations : Nat

/-- `grep -Fxq "$url" "$PROCESSED_FILE"`: the answer and the bytes it reads from the
inherited input, which it does when the URL is an option to it. -/
def grepProcessed (commands : Commands) (url : Url) (s : Collection) : Bool × Nat :=
  if isOption url then (commands.grepFinds, commands.grepReads) else (url ∈ s.processed.lines, 0)

/-- The iteration for one URL. -/
def iterate (machine : Machine) (commands : Commands) (url : Url) (s : Collection) :
    Collection × Nat :=
  let grep := grepProcessed commands url s
  if grep.1 then (s, grep.2)
  else
    let result := processPackage machine commands url s
    let after := result.collection
    if result.succeeds then (after, grep.2 + result.reads)
    else
      ({ after with failed := after.failed ++ echoed url, failures := after.failures + 1 },
        grep.2 + result.reads)

/-- The body of the loop. -/
def loopBody (machine : Machine) (oracle : Nat → Commands) (s : LoopState) (line : List Char) :
    LoopState × Nat :=
  match urlOf machine line with
  | none => (s, 0)
  | some url =>
      let next := iterate machine (oracle s.iterations) url s.collection
      ({ collection := next.1, iterations := s.iterations + 1 }, next.2)

/-- The files when the script starts. -/
def Collection.resume (s : Collection) : Collection := { s with failed := [], failures := 0 }

/-- The main loop. -/
def mainLoop (machine : Machine) (oracle : Nat → Commands) (s : Collection) (text : List Char) :
    Collection :=
  (ReadLoop.run (loopBody machine oracle) { collection := s.resume, iterations := 0 }
    text).collection

/-- The lines that `read` delivers. -/
def delivered (machine : Machine) (oracle : Nat → Commands) (s : Collection) (text : List Char) :
    List (LoopState × List Char) :=
  ReadLoop.visits (loopBody machine oracle) { collection := s.resume, iterations := 0 } text

/-! ## One iteration -/

/-- What a call of `process_package` does to the bookkeeping. -/
theorem processPackage_bookkeeping (machine : Machine) (commands : Commands) (url : Url)
    (s : Collection) :
    (processPackage machine commands url s).collection.failed = s.failed ∧
      (processPackage machine commands url s).collection.failures = s.failures ∧
        (processPackage machine commands url s).collection.processed =
          if (processPackage machine commands url s).succeeds then s.processed.appendAll (echoed url)
          else s.processed := by
  unfold processPackage
  simp only
  split
  · simp
  · split
    · simp
    · split
      · simp
      · split <;> simp

end Icflow.Collect
