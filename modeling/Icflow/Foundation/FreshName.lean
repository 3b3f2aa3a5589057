import Mathlib.Data.Finset.Card
import Mathlib.Data.Finset.Range
import Mathlib.Data.Nat.Find

set_option autoImplicit false

/-!
# The first free name

A search through a sequence of names for the first that is not taken.  It ends when the
names are distinct and only finitely many are taken, after at most one test more than
there are taken names.
-/

namespace Icflow.Foundation

section FirstFree

variable {ν : Type} (taken : ν → Bool) (name : Nat → ν)

/-- The first name that is not taken, among the given number of them from `start` on. -/
def firstFree : Nat → Nat → Option Nat
  | 0, _ => none
  | fuel + 1, start => if taken (name start) then firstFree fuel (start + 1) else some start

/-- The number of the first name that is not taken. -/
structure IsFirstFree (i : Nat) : Prop where
  free : taken (name i) = false
  before : ∀ j < i, taken (name j) = true

variable {taken name}

theorem firstFree_eq_some_iff {fuel start i : Nat} :
    firstFree taken name fuel start = some i ↔
      start ≤ i ∧ i < start + fuel ∧ taken (name i) = false ∧
        ∀ j, start ≤ j → j < i → taken (name j) = true := by
  induction fuel generalizing start with
  | zero =>
      refine iff_of_false (Option.some_ne_none i ·.symm) ?_
      omega
  | succ fuel ih =>
      unfold firstFree
      cases hstart : taken (name start) with
      | true =>
          rw [if_pos rfl, ih]
          constructor
          · rintro ⟨hle, hlt, hfree, hbefore⟩
            refine ⟨Nat.le_of_succ_le hle, by omega, hfree, ?_⟩
            intro j hj hji
            rcases Nat.eq_or_lt_of_le hj with rfl | hlater
            · exact hstart
            · exact hbefore j hlater hji
          · rintro ⟨hle, hlt, hfree, hbefore⟩
            have hne : start ≠ i := by
              rintro rfl
              rw [hstart] at hfree
              cases hfree
            exact ⟨by omega, by omega, hfree, fun j hj hji => hbefore j (Nat.le_of_succ_le hj) hji⟩
      | false =>
          rw [if_neg Bool.false_ne_true, Option.some.injEq]
          constructor
          · rintro rfl
            exact ⟨Nat.le_refl _, by omega, hstart, fun j hj hji => absurd hji (Nat.not_lt.mpr hj)⟩
          · rintro ⟨hle, _, _, hbefore⟩
            rcases Nat.eq_or_lt_of_le hle with heq | hlt
            · exact heq
            · rw [hbefore start (Nat.le_refl _) hlt] at hstart
              cases hstart

theorem firstFree_zero_eq_some_iff {fuel i : Nat} :
    firstFree taken name fuel 0 = some i ↔ i < fuel ∧ IsFirstFree taken name i := by
  rw [firstFree_eq_some_iff, Nat.zero_add]
  constructor
  · rintro ⟨_, hlt, hfree, hbefore⟩
    exact ⟨hlt, hfree, fun j hj => hbefore j (Nat.zero_le j) hj⟩
  · rintro ⟨hlt, hfree, hbefore⟩
    exact ⟨Nat.zero_le i, hlt, hfree, fun j _ hj => hbefore j hj⟩

theorem IsFirstFree.unique {i j : Nat} (hi : IsFirstFree taken name i)
    (hj : IsFirstFree taken name j) : i = j := by
  rcases Nat.lt_trichotomy i j with hlt | heq | hgt
  · exact absurd (hj.before i hlt) (Bool.eq_false_iff.mp hi.free)
  · exact heq
  · exact absurd (hi.before j hgt) (Bool.eq_false_iff.mp hj.free)

/-- Distinct names are not all taken. -/
theorem exists_isFirstFree (hname : Function.Injective name) (names : List ν)
    (htaken : ∀ used, taken used = true → used ∈ names) :
    ∃ i ≤ names.length, IsFirstFree taken name i := by
  classical
  have hfree : ∃ i, i ≤ names.length ∧ taken (name i) = false := by
    by_contra hnone
    have hall : ∀ i ∈ Finset.range (names.length + 1), name i ∈ names.toFinset := by
      intro i hi
      rw [List.mem_toFinset]
      apply htaken
      by_contra hfalse
      exact hnone ⟨i, Nat.le_of_lt_succ (Finset.mem_range.mp hi), Bool.eq_false_iff.mpr hfalse⟩
    have hcard := Finset.card_le_card_of_injOn name hall hname.injOn
    rw [Finset.card_range] at hcard
    exact absurd (hcard.trans names.toFinset_card_le) (Nat.not_succ_le_self _)
  refine ⟨Nat.find hfree, (Nat.find_spec hfree).1, (Nat.find_spec hfree).2, ?_⟩
  intro j hj
  have hmin := Nat.find_min hfree hj
  rw [not_and, Bool.not_eq_false] at hmin
  exact hmin (Nat.le_trans (Nat.le_of_lt hj) (Nat.find_spec hfree).1)

end FirstFree

end Icflow.Foundation
