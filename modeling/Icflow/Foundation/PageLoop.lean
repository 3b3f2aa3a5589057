import Mathlib.Data.Nat.Basic

set_option autoImplicit false

/-!
# A loop over numbered pages

A client asks for one page after the other and decides after each of them, by the page and
by what it has gathered so far, whether to go on.  Nothing bounds the loop: it is run for a
number of requests, and `Reaches` says which requests are made.
-/

namespace Icflow.Foundation.PageLoop

/-- What is decided after a page. -/
inductive Verdict (σ : Type) where
  | again (gathered : σ)
  | stop (gathered : σ)
  | abort

/-- How a loop has ended. -/
inductive Ending (σ : Type) where
  | complete (gathered : σ)
  | aborted

variable {σ : Type}

/-- At most the given number of requests; `none` while the loop goes on. -/
def run (visit : Nat → σ → Verdict σ) : Nat → Nat → σ → Option (Ending σ)
  | 0, _, _ => none
  | requests + 1, page, gathered =>
      match visit page gathered with
      | .again gathered => run visit requests (page + 1) gathered
      | .stop gathered => some (.complete gathered)
      | .abort => some .aborted

/-- A loop that starts with a request for the first page comes to ask for the second one. -/
inductive Reaches (visit : Nat → σ → Verdict σ) (first : Nat) (start : σ) : Nat → σ → Prop where
  | first : Reaches visit first start first start
  | again {page : Nat} {gathered next : σ} (h : Reaches visit first start page gathered)
      (hagain : visit page gathered = .again next) :
      Reaches visit first start (page + 1) next

variable {visit : Nat → σ → Verdict σ} {first page requests : Nat} {start gathered next : σ}

theorem run_of_again (h : visit page gathered = .again next) (requests : Nat) :
    run visit (requests + 1) page gathered = run visit requests (page + 1) next := by
  rw [run, h]

theorem run_of_stop (h : visit page gathered = .stop next) (requests : Nat) :
    run visit (requests + 1) page gathered = some (.complete next) := by
  rw [run, h]

theorem run_of_abort (h : visit page gathered = .abort) (requests : Nat) :
    run visit (requests + 1) page gathered = some .aborted := by
  rw [run, h]

theorem Reaches.le (h : Reaches visit first start page gathered) : first ≤ page := by
  induction h with
  | first => exact Nat.le_refl first
  | again _ _ ih => exact Nat.le_succ_of_le ih

/-- A page that is asked for is asked for after all the earlier ones. -/
theorem Reaches.run_eq (h : Reaches visit first start page gathered) (requests : Nat) :
    run visit (requests + (page - first)) first start = run visit requests page gathered := by
  induction h generalizing requests with
  | first => rw [Nat.sub_self, Nat.add_zero]
  | @again page gathered next hreach hagain ih =>
      have hlength : requests + (page + 1 - first) = requests + 1 + (page - first) := by
        have hle := hreach.le
        omega
      rw [hlength, ih, run_of_again hagain]

/-- As long as no request is made for a page, the loop goes on. -/
theorem Reaches.run_eq_none (h : Reaches visit first start page gathered)
    (hrequests : requests ≤ page - first) : run visit requests first start = none := by
  induction h generalizing requests with
  | first =>
      rw [Nat.sub_self, Nat.le_zero] at hrequests
      rw [hrequests, run]
  | @again page gathered next hreach hagain ih =>
      have hle := hreach.le
      rcases Nat.lt_or_ge (page - first) requests with hlast | hearlier
      · have hlength : requests = 1 + (page - first) := by omega
        rw [hlength, hreach.run_eq, run_of_again hagain, run]
      · exact ih hearlier

/-- The loop ends with the page after which it is decided to stop. -/
theorem Reaches.run_of_stop (h : Reaches visit first start page gathered)
    (hstop : visit page gathered = .stop next) (hrequests : page - first < requests) :
    run visit requests first start = some (.complete next) := by
  have hlength : requests = requests - (page - first) - 1 + 1 + (page - first) := by omega
  rw [hlength, h.run_eq, PageLoop.run_of_stop hstop]

theorem Reaches.run_of_abort (h : Reaches visit first start page gathered)
    (habort : visit page gathered = .abort) (hrequests : page - first < requests) :
    run visit requests first start = some .aborted := by
  have hlength : requests = requests - (page - first) - 1 + 1 + (page - first) := by omega
  rw [hlength, h.run_eq, PageLoop.run_of_abort habort]

end Icflow.Foundation.PageLoop
