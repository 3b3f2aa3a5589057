import Mathlib.Data.Nat.Basic
import Mathlib.Tactic.Ring

set_option autoImplicit false

/-!
# Positional numerals

Reading and writing unsigned integers in a radix between two and sixteen.  The
writer is the core library's `Nat.toDigits`, which is what a stream in `hex` mode
prints; the readers are the digit loops shared by the C library's `strtoull` and
by Python's `int`.  Nothing in this file knows what the numbers stand for.
-/

namespace Icflow.Foundation

/-! ## Digits -/

/-- The value of one digit character: `0`-`9`, then letters of either case. -/
def digitValue (c : Char) : Option Nat :=
  if '0' ≤ c ∧ c ≤ '9' then some (c.toNat - '0'.toNat)
  else if 'a' ≤ c ∧ c ≤ 'z' then some (c.toNat - 'a'.toNat + 10)
  else if 'A' ≤ c ∧ c ≤ 'Z' then some (c.toNat - 'A'.toNat + 10)
  else none

/-- The value of a digit character that is admissible in the radix. -/
def digitIn (radix : Nat) (c : Char) : Option Nat :=
  match digitValue c with
  | some value => if value < radix then some value else none
  | none => none

/-- No character is a digit of the given radix. -/
def StartsWithNoDigit (radix : Nat) (text : List Char) : Prop :=
  ∀ c rest, text = c :: rest → digitIn radix c = none

theorem startsWithNoDigit_nil (radix : Nat) : StartsWithNoDigit radix [] := by
  intro c rest h
  cases h

/-- Every digit the writer prints is read back with its own value. -/
theorem digitIn_digitChar {radix value : Nat} (hradix : radix ≤ 16)
    (hvalue : value < radix) : digitIn radix (Nat.digitChar value) = some value := by
  have hsmall : value < 16 := by omega
  have hdigit : digitValue (Nat.digitChar value) = some value := by
    rcases value with _ | _ | _ | _ | _ | _ | _ | _ | _ | _ | _ | _ | _ | _ | _ | _ | value
    all_goals first | decide | omega
  simp [digitIn, hdigit, hvalue]

/-! ## The digit loop -/

/-- Fold the longest prefix of digits into the accumulator and return the rest
of the text with the number of digits consumed. -/
def readDigits (radix : Nat) : Nat → Nat → List Char → Nat × Nat × List Char
  | acc, count, [] => (acc, count, [])
  | acc, count, c :: rest =>
      match digitIn radix c with
      | some value => readDigits radix (acc * radix + value) (count + 1) rest
      | none => (acc, count, c :: rest)

theorem readDigits_stop {radix : Nat} {rest : List Char} (acc count : Nat)
    (h : StartsWithNoDigit radix rest) :
    readDigits radix acc count rest = (acc, count, rest) := by
  cases rest with
  | nil => rfl
  | cons c rest => simp [readDigits, h c rest rfl]

theorem readDigits_digit {radix value : Nat} (hradix : radix ≤ 16)
    (hvalue : value < radix) (acc count : Nat) (rest : List Char) :
    readDigits radix acc count (Nat.digitChar value :: rest) =
      readDigits radix (acc * radix + value) (count + 1) rest := by
  simp [readDigits, digitIn_digitChar hradix hvalue]

/-- The digit loop undoes the writer, whatever follows the numeral.  The
induction is on the number, along the writer's own recursion. -/
theorem readDigits_toDigits_append {radix : Nat} (hlow : 1 < radix)
    (hhigh : radix ≤ 16) (n : Nat) :
    ∀ (count : Nat) (rest : List Char),
      readDigits radix 0 count (Nat.toDigits radix n ++ rest) =
        readDigits radix n (count + (Nat.toDigits radix n).length) rest := by
  induction n using Nat.strongRecOn with
  | ind n ih =>
      intro count rest
      by_cases hsmall : n < radix
      · rw [Nat.toDigits_of_lt_base hsmall]
        simp [readDigits_digit hhigh hsmall]
      · have hle : radix ≤ n := by omega
        have hlt : n / radix < n := Nat.div_lt_self (by omega) hlow
        have hmod : n % radix < radix := Nat.mod_lt _ (by omega)
        rw [Nat.toDigits_of_base_le hlow hle, List.append_assoc, ih _ hlt,
          List.singleton_append, readDigits_digit hhigh hmod]
        have hsplit : n / radix * radix + n % radix = n := Nat.div_add_mod' n radix
        rw [hsplit, List.length_append, List.length_singleton, Nat.add_assoc]

/-- A written numeral followed by a non-digit is read back exactly. -/
theorem readDigits_toDigits {radix : Nat} (hlow : 1 < radix) (hhigh : radix ≤ 16)
    (n : Nat) {rest : List Char} (hrest : StartsWithNoDigit radix rest) :
    readDigits radix 0 0 (Nat.toDigits radix n ++ rest) =
      (n, (Nat.toDigits radix n).length, rest) := by
  rw [readDigits_toDigits_append hlow hhigh, readDigits_stop _ _ hrest, Nat.zero_add]

/-- Numerals of different numbers are different texts. -/
theorem toDigits_injective {radix : Nat} (hlow : 1 < radix) (hhigh : radix ≤ 16) :
    Function.Injective (Nat.toDigits radix) := by
  intro m n h
  have hm := readDigits_toDigits hlow hhigh m (startsWithNoDigit_nil radix)
  have hn := readDigits_toDigits hlow hhigh n (startsWithNoDigit_nil radix)
  rw [h] at hm
  exact congrArg Prod.fst (hm.symm.trans hn)

/-- A written numeral starts with a digit. -/
theorem toDigits_eq_cons {radix : Nat} (hlow : 1 < radix) (hhigh : radix ≤ 16) (n : Nat) :
    ∃ value rest, value < radix ∧
      Nat.toDigits radix n = Nat.digitChar value :: rest := by
  induction n using Nat.strongRecOn with
  | ind n ih =>
      by_cases hsmall : n < radix
      · exact ⟨n, [], hsmall, Nat.toDigits_of_lt_base hsmall⟩
      · have hlt : n / radix < n := Nat.div_lt_self (by omega) hlow
        obtain ⟨value, rest, hvalue, heq⟩ := ih _ hlt
        refine ⟨value, rest ++ [Nat.digitChar (n % radix)], hvalue, ?_⟩
        rw [Nat.toDigits_of_base_le hlow (by omega), heq, List.cons_append]

/-- A written numeral has no leading zero. -/
theorem head?_toDigits_ne {radix : Nat} (hlow : 1 < radix) (hhigh : radix ≤ 16) {n : Nat}
    (hn : 0 < n) : (Nat.toDigits radix n).head? ≠ some '0' := by
  induction n using Nat.strongRecOn with
  | ind n ih =>
      by_cases hsmall : n < radix
      · rw [Nat.toDigits_of_lt_base hsmall, List.head?_cons]
        have hdigits : ∀ v < 16, 0 < v → some (Nat.digitChar v) ≠ some '0' := by decide
        exact hdigits n (by omega) hn
      · have hle : radix ≤ n := by omega
        have hfront := ih (n / radix) (Nat.div_lt_self hn hlow) (Nat.div_pos hle (by omega))
        obtain ⟨value, rest, _, heq⟩ := toDigits_eq_cons hlow hhigh (n / radix)
        rw [heq, List.head?_cons] at hfront
        rw [Nat.toDigits_of_base_le hlow hle, heq, List.cons_append, List.head?_cons]
        exact hfront

/-- Every character of a written numeral is a digit of the radix. -/
theorem mem_toDigits {radix : Nat} (hlow : 1 < radix) (n : Nat) :
    ∀ c ∈ Nat.toDigits radix n, ∃ value < radix, c = Nat.digitChar value := by
  induction n using Nat.strongRecOn with
  | ind n ih =>
      intro c hc
      by_cases hsmall : n < radix
      · rw [Nat.toDigits_of_lt_base hsmall, List.mem_singleton] at hc
        exact ⟨n, hsmall, hc⟩
      · have hlt : n / radix < n := Nat.div_lt_self (by omega) hlow
        rw [Nat.toDigits_of_base_le hlow (by omega), List.mem_append,
          List.mem_singleton] at hc
        rcases hc with hc | hc
        · exact ih _ hlt c hc
        · exact ⟨n % radix, Nat.mod_lt _ (by omega), hc⟩

end Icflow.Foundation
