import Mathlib.Data.ENat.Lattice

set_option autoImplicit false

/-!
# Repeated attempts

A loop that makes an attempt, ends with what the attempt decides, and makes the next one
when it decides nothing, with a bound on the number of attempts.  How many attempts are
made is given by how many of the first ones leave the matter open.
-/

namespace Icflow.Foundation

/-! ## Leading numbers -/

section Leading

variable {p : Nat → Prop} {n : Nat}

open Classical in
/-- How many numbers from zero on have a property, before the first that has not. -/
noncomputable def leading (p : Nat → Prop) : ℕ∞ :=
  if h : ∃ n, ¬ p n then (Nat.find h : ℕ∞) else ⊤

theorem leading_eq_coe_iff : leading p = n ↔ (∀ m < n, p m) ∧ ¬ p n := by
  classical
  unfold leading
  by_cases h : ∃ n, ¬ p n
  · rw [dif_pos h, Nat.cast_inj, Nat.find_eq_iff, and_comm]
    simp only [not_not]
  · rw [dif_neg h]
    apply iff_of_false (ENat.top_ne_natCast n)
    intro hfirst
    exact h ⟨n, hfirst.2⟩

theorem coe_lt_leading_iff : (n : ℕ∞) < leading p ↔ ∀ m ≤ n, p m := by
  classical
  unfold leading
  by_cases h : ∃ n, ¬ p n
  · rw [dif_pos h, Nat.cast_lt, Nat.lt_find_iff]
    simp only [not_not]
  · rw [dif_neg h]
    apply iff_of_true (ENat.natCast_lt_top n)
    intro m _
    exact not_not.mp (not_exists.mp h m)

end Leading

/-! ## The loop -/

section Attempts

variable {β : Type}

/-- At most the given number of attempts, numbered from `first` on, until one decides: how
many are made, and what is decided. -/
def attempts (decides : Nat → Option β) (first : Nat) : Nat → Nat × Option β
  | 0 => (0, none)
  | count + 1 =>
      match decides first with
      | some result => (1, some result)
      | none =>
          let later := attempts decides (first + 1) count
          (later.1 + 1, later.2)

variable {decides : Nat → Option β} {first : Nat}

theorem attempts_succ_of_some {result : β} (h : decides first = some result) (count : Nat) :
    attempts decides first (count + 1) = (1, some result) := by
  simp only [attempts, h]

theorem attempts_succ_of_none (h : decides first = none) (count : Nat) :
    attempts decides first (count + 1) =
      ((attempts decides (first + 1) count).1 + 1, (attempts decides (first + 1) count).2) := by
  simp only [attempts, h]

/-- The loop ends at the first attempt that decides, or makes them all. -/
theorem attempts_cases (decides : Nat → Option β) (first count : Nat) :
    (∃ n < count, ∃ result, (∀ m < n, decides (first + m) = none) ∧
        decides (first + n) = some result ∧ attempts decides first count = (n + 1, some result)) ∨
      (∀ m < count, decides (first + m) = none) ∧ attempts decides first count = (count, none) := by
  induction count generalizing first with
  | zero => exact Or.inr ⟨fun m hm => absurd hm (Nat.not_lt_zero m), rfl⟩
  | succ count ih =>
      cases hfirst : decides first with
      | some result =>
          refine Or.inl ⟨0, Nat.succ_pos count, result, ?_, hfirst, attempts_succ_of_some hfirst count⟩
          intro m hm
          exact absurd hm (Nat.not_lt_zero m)
      | none =>
          -- an open attempt shifts what the rest of the loop does by one
          have hopen : ∀ n, (∀ m < n, decides (first + 1 + m) = none) →
              ∀ m < n + 1, decides (first + m) = none := by
            intro n hrest m hm
            cases m with
            | zero => exact hfirst
            | succ m =>
                have hlater := hrest m (Nat.lt_of_succ_lt_succ hm)
                rwa [Nat.add_right_comm] at hlater
          rw [attempts_succ_of_none hfirst]
          rcases ih (first + 1) with ⟨n, hn, result, hrest, hresult, heq⟩ | ⟨hrest, heq⟩
          · refine Or.inl ⟨n + 1, Nat.succ_lt_succ hn, result, hopen n hrest, ?_, ?_⟩
            · rwa [Nat.add_right_comm] at hresult
            · rw [heq]
          · refine Or.inr ⟨hopen count hrest, ?_⟩
            rw [heq]

/-- A last attempt that always decides is not passed. -/
theorem attempts_of_last {count : Nat} (hlast : decides (first + count) ≠ none) :
    ∃ n ≤ count, ∃ result, (∀ m < n, decides (first + m) = none) ∧
      decides (first + n) = some result ∧
      attempts decides first (count + 1) = (n + 1, some result) := by
  rcases attempts_cases decides first (count + 1) with ⟨n, hn, hfound⟩ | ⟨hrest, _⟩
  · exact ⟨n, Nat.le_of_lt_succ hn, hfound⟩
  · exact absurd (hrest count (Nat.lt_succ_self count)) hlast

end Attempts

end Icflow.Foundation
