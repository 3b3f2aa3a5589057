import Icflow.Foundation.Lines
import Icflow.Foundation.Occurrences
import Mathlib.Data.List.TakeWhile

set_option autoImplicit false

/-!
# `while read` over an input the body may consume too

The commands in the body of `while IFS= read -r line || [[ -n $line ]]` inherit the
input that `read` takes its lines from.  A body is a function from a state and a line
to the next state and the number of bytes its commands have read; `visits` lists the
lines that `read` gets to see, each with the state it was read in.
-/

namespace Icflow.Foundation.ReadLoop

/-- The next line and what follows it; `none` when the loop ends.  A line without its
newline counts unless it is empty, and `read` drops null bytes. -/
def readLine (input : List Char) : Option (List Char × List Char) :=
  let line := (input.takeWhile (· != '\n')).filter (· != '\x00')
  match input.dropWhile (· != '\n') with
  | [] => if line = [] then none else some (line, [])
  | _ :: rest => some (line, rest)

theorem length_of_readLine {input line rest : List Char} (h : readLine input = some (line, rest)) :
    rest.length < input.length := by
  have hdrop : (input.dropWhile (· != '\n')).length ≤ input.length :=
    (List.dropWhile_suffix _).length_le
  unfold readLine at h
  simp only at h
  split at h
  · split at h
    · cases h
    · rename_i hline
      obtain rfl : [] = rest := congrArg Prod.snd (Option.some.inj h)
      cases input with
      | nil => exact absurd rfl hline
      | cons c input => exact Nat.succ_pos _
  · rename_i hrest
    obtain rfl := congrArg Prod.snd (Option.some.inj h)
    rw [hrest, List.length_cons] at hdrop
    exact hdrop

/-- The lines of the input when nothing else reads from it. -/
def readLines (input : List Char) : List (List Char) :=
  match _hread : readLine input with
  | none => []
  | some (line, rest) => line :: readLines rest
termination_by input.length
decreasing_by exact length_of_readLine ‹_›

theorem readLines_of_none {input : List Char} (h : readLine input = none) :
    readLines input = [] := by
  unfold readLines
  split
  · rfl
  · rename_i hsome
    rw [h] at hsome
    cases hsome

theorem readLines_of_some {input line rest : List Char} (h : readLine input = some (line, rest)) :
    readLines input = line :: readLines rest := by
  rw [readLines]
  split
  · rename_i hnone
    rw [h] at hnone
    cases hnone
  · rename_i hsome
    rw [h] at hsome
    cases hsome
    rfl

/-- A line of the file as `read` stores it. -/
def dropNulls (line : List Char) : List Char := line.filter (· != '\x00')

theorem readLine_of_notMem {input : List Char} (h : '\n' ∉ input) :
    readLine input = if dropNulls input = [] then none else some (dropNulls input, []) := by
  have hline : input.takeWhile (· != '\n') = input :=
    List.takeWhile_eq_self_iff.mpr (bne_of_notMem h)
  have hrest : input.dropWhile (· != '\n') = [] := List.dropWhile_eq_nil_iff.mpr (bne_of_notMem h)
  unfold readLine
  rw [hline, hrest]
  rfl

theorem readLine_append_newline {first : List Char} (h : '\n' ∉ first) (rest : List Char) :
    readLine (first ++ '\n' :: rest) = some (dropNulls first, rest) := by
  have hkeep := bne_of_notMem h
  unfold readLine
  rw [List.takeWhile_append_of_pos hkeep, List.dropWhile_append_of_pos hkeep,
    List.takeWhile_cons_of_neg (by decide), List.dropWhile_cons_of_neg (by decide),
    List.append_nil]
  rfl

/-- What is made of the lines that `read` delivers is made of the lines of the file, as long
as nothing is made of an empty one. -/
theorem filterMap_readLines {β : Type} {f : List Char → Option β} (hnil : f [] = none)
    (text : List Char) :
    (readLines text).filterMap f = (pieces text).filterMap fun line => f (dropNulls line) := by
  induction text using readLines.induct with
  | case1 input hread =>
      rw [readLines_of_none hread]
      rcases Classical.em ('\n' ∈ input) with hmem | hlast
      · obtain ⟨first, rest, rfl, hfirst⟩ := List.eq_append_cons_of_mem hmem
        rw [readLine_append_newline hfirst] at hread
        cases hread
      · rw [readLine_of_notMem hlast] at hread
        rw [pieces_of_notMem hlast]
        split
        · rfl
        · split at hread
          · rename_i hempty
            rw [List.filterMap_cons, hempty, hnil]
            rfl
          · cases hread
  | case2 input line rest hread ih =>
      rw [readLines_of_some hread, List.filterMap_cons, ih]
      rcases Classical.em ('\n' ∈ input) with hmem | hlast
      · obtain ⟨first, later, rfl, hfirst⟩ := List.eq_append_cons_of_mem hmem
        rw [readLine_append_newline hfirst] at hread
        cases hread
        rw [pieces_append_newline hfirst, List.filterMap_cons]
      · rw [readLine_of_notMem hlast] at hread
        rw [pieces_of_notMem hlast]
        split at hread
        · cases hread
        · rename_i hline
          have hne : input ≠ [] := by
            rintro rfl
            exact hline rfl
          cases hread
          rw [if_neg hne, List.filterMap_cons]
          rfl

section Loop

variable {σ : Type}

theorem length_drop_of_readLine {input line rest : List Char}
    (h : readLine input = some (line, rest)) (count : Nat) :
    (rest.drop count).length < input.length :=
  Nat.lt_of_le_of_lt (List.drop_suffix count rest).length_le (length_of_readLine h)

/-- The state after the loop. -/
def run (body : σ → List Char → σ × Nat) (s : σ) (input : List Char) : σ :=
  match _hread : readLine input with
  | none => s
  | some (line, rest) => run body (body s line).1 (rest.drop (body s line).2)
termination_by input.length
decreasing_by exact length_drop_of_readLine ‹_› _

/-- The lines that are read, with the states they are read in. -/
def visits (body : σ → List Char → σ × Nat) (s : σ) (input : List Char) :
    List (σ × List Char) :=
  match _hread : readLine input with
  | none => []
  | some (line, rest) =>
      (s, line) :: visits body (body s line).1 (rest.drop (body s line).2)
termination_by input.length
decreasing_by exact length_drop_of_readLine ‹_› _

variable {body : σ → List Char → σ × Nat}

theorem run_of_none {input : List Char} (h : readLine input = none) (s : σ) :
    run body s input = s := by
  unfold run
  split
  · rfl
  · rename_i hsome
    rw [h] at hsome
    cases hsome

theorem run_of_some {input line rest : List Char} (h : readLine input = some (line, rest)) (s : σ) :
    run body s input = run body (body s line).1 (rest.drop (body s line).2) := by
  rw [run]
  split
  · rename_i hnone
    rw [h] at hnone
    cases hnone
  · rename_i hsome
    rw [h] at hsome
    cases hsome
    rfl

theorem visits_of_none {input : List Char} (h : readLine input = none) (s : σ) :
    visits body s input = [] := by
  unfold visits
  split
  · rfl
  · rename_i hsome
    rw [h] at hsome
    cases hsome

theorem visits_of_some {input line rest : List Char} (h : readLine input = some (line, rest))
    (s : σ) :
    visits body s input =
      (s, line) :: visits body (body s line).1 (rest.drop (body s line).2) := by
  rw [visits]
  split
  · rename_i hnone
    rw [h] at hnone
    cases hnone
  · rename_i hsome
    rw [h] at hsome
    cases hsome
    rfl

/-- What holds of a loop that reads nothing, and of a loop whenever it holds of the loop
without its first line, holds of every loop. -/
theorem run_induction (body : σ → List Char → σ × Nat)
    (motive : σ → List (σ × List Char) → σ → Prop) (hend : ∀ s, motive s [] s)
    (hline : ∀ s line rest s', motive (body s line).1 rest s' → motive s ((s, line) :: rest) s')
    (s : σ) (input : List Char) : motive s (visits body s input) (run body s input) := by
  induction s, input using run.induct body with
  | case1 s input hread =>
      rw [visits_of_none hread, run_of_none hread]
      exact hend s
  | case2 s input line rest hread ih =>
      rw [visits_of_some hread, run_of_some hread]
      exact hline s line _ _ ih

/-- When the body reads nothing at the lines it is run for, every line is visited. -/
theorem visits_lines (s : σ) (input : List Char)
    (hnone : ∀ visit ∈ visits body s input, (body visit.1 visit.2).2 = 0) :
    (visits body s input).map Prod.snd = readLines input := by
  induction s, input using run.induct body with
  | case1 s input hread => rw [visits_of_none hread, readLines_of_none hread, List.map_nil]
  | case2 s input line rest hread ih =>
      rw [visits_of_some hread] at hnone
      have hfirst : (body s line).2 = 0 := hnone (s, line) List.mem_cons_self
      have hlater := ih (List.forall_mem_of_forall_mem_cons hnone)
      rw [hfirst, List.drop_zero] at hlater
      rw [visits_of_some hread, readLines_of_some hread, hfirst, List.drop_zero, List.map_cons,
        hlater]

end Loop

end Icflow.Foundation.ReadLoop
