import Icflow.Foundation.Numeral
import Mathlib.Data.Int.Notation

set_option autoImplicit false

/-!
# Two library readers of integers

`stoull` is `std::stoull(text, nullptr, 16)` of the C++ standard library: white
space, a sign and a `0x` prefix are skipped, the longest digit prefix is read and
whatever follows is ignored.  `intBaseZero` is Python's `int(text, 0)`: the radix
is taken from the prefix, single underscores may separate digits, and the whole
text has to be used up.  Both are stated over plain texts, and the last section
proves that they agree on the spelling `0x` followed by lower-case digits.
-/

namespace Icflow.Foundation

/-- `isspace` of the C locale. -/
def isSpace (c : Char) : Bool := c == ' ' || ('\t' ≤ c && c ≤ '\r')

/-- Split an optional sign off; `true` stands for a minus sign. -/
def readSign : List Char → Bool × List Char
  | '-' :: rest => (true, rest)
  | '+' :: rest => (false, rest)
  | rest => (false, rest)

/-! ## The C++ reader -/

/-- The two exceptions `std::stoull` throws. -/
inductive NumericFault where
  /-- no digit could be read -/
  | invalidArgument
  /-- the value does not fit the result type -/
  | outOfRange
  deriving DecidableEq, Repr, Inhabited

/-- `strtoull` drops `0x` in radix sixteen only when a digit follows it. -/
def dropHexPrefix : List Char → List Char
  | '0' :: x :: c :: rest =>
      if (x = 'x' ∨ x = 'X') ∧ (digitIn 16 c).isSome then c :: rest
      else '0' :: x :: c :: rest
  | text => text

/-- `std::stoull(text, nullptr, 16)` at word width `w`.  A negative numeral is
negated in the result type, as `strtoull` does. -/
def stoull (w : Nat) (text : List Char) : Except NumericFault (BitVec w) :=
  let signed := readSign (text.dropWhile isSpace)
  match readDigits 16 0 0 (dropHexPrefix signed.2) with
  | (value, count, _) =>
      if count = 0 then .error .invalidArgument
      else if 2 ^ w ≤ value then .error .outOfRange
      else .ok (if signed.1 then -BitVec.ofNat w value else BitVec.ofNat w value)

/-! ## The Python reader -/

/-- The digit loop of `int`: single underscores may stand between digits, never
doubled and never last.  `prev` records that the last character was one. -/
def readGroupedDigits (radix : Nat) :
    Nat → Nat → Bool → List Char → Option (Nat × Nat × List Char)
  | acc, count, prev, [] => if prev then none else some (acc, count, [])
  | acc, count, prev, c :: rest =>
      if c = '_' then
        if prev then none else readGroupedDigits radix acc count true rest
      else
        match digitIn radix c with
        | some value => readGroupedDigits radix (acc * radix + value) (count + 1) false rest
        | none => if prev then none else some (acc, count, c :: rest)

/-- The radix `int(text, 0)` detects, the text after the prefix, and whether only
zero is admissible (a decimal numeral that starts with `0`). -/
def detectRadix : List Char → Nat × List Char × Bool
  | '0' :: c :: rest =>
      if c = 'x' ∨ c = 'X' then (16, rest, false)
      else if c = 'o' ∨ c = 'O' then (8, rest, false)
      else if c = 'b' ∨ c = 'B' then (2, rest, false)
      else (10, '0' :: c :: rest, true)
  | '0' :: [] => (10, ['0'], true)
  | text => (10, text, false)

/-- One underscore may follow a radix prefix. -/
def dropPrefixUnderscore (radix : Nat) : List Char → List Char
  | '_' :: rest => if radix = 10 then '_' :: rest else rest
  | text => text

/-- The largest number of decimal digits `int` converts. -/
def maxStrDigits : Nat := 4300

/-- Python's `int(text, 0)` on an ASCII text; `none` is its `ValueError`. -/
def intBaseZero (text : List Char) : Option Int :=
  let signed := readSign (text.dropWhile isSpace)
  match detectRadix signed.2 with
  | (radix, body, onlyZero) =>
      let digits := dropPrefixUnderscore radix body
      if digits.head? = some '_' then none
      else
        match readGroupedDigits radix 0 0 false digits with
        | none => none
        | some (value, count, rest) =>
            if count = 0 ∨ (radix = 10 ∧ maxStrDigits < count) then none
            else if onlyZero ∧ value ≠ 0 then none
            else if rest.dropWhile isSpace = [] then
              some (if signed.1 then -(value : Int) else (value : Int))
            else none

/-! ## The common spelling -/

/-- `0x` followed by the lower-case hexadecimal digits, without leading zeros. -/
def hexText (n : Nat) : List Char := '0' :: 'x' :: Nat.toDigits 16 n

theorem hexText_injective : Function.Injective hexText := by
  intro m n h
  have hdigits : Nat.toDigits 16 m = Nat.toDigits 16 n := by
    simpa [hexText] using h
  exact toDigits_injective (by omega) (by omega) hdigits

/-- Every character of the common spelling is `x` or a hexadecimal digit. -/
theorem mem_hexText {n : Nat} {c : Char} (hc : c ∈ hexText n) :
    c = 'x' ∨ ∃ value < 16, c = Nat.digitChar value := by
  simp only [hexText, List.mem_cons] at hc
  rcases hc with rfl | rfl | hc
  · exact Or.inr ⟨0, by omega, rfl⟩
  · exact Or.inl rfl
  · exact Or.inr (mem_toDigits (by omega) n c hc)

theorem stoull_hexText {w : Nat} (a : BitVec w) : stoull w (hexText a.toNat) = .ok a := by
  have hlow : 1 < 16 := by omega
  have hhigh : 16 ≤ 16 := Nat.le_refl 16
  obtain ⟨value, rest, hvalue, heq⟩ := toDigits_eq_cons hlow hhigh a.toNat
  have hfirst : (digitIn 16 (Nat.digitChar value)).isSome = true := by
    rw [digitIn_digitChar (by omega) hvalue]; rfl
  have hhead : dropHexPrefix (hexText a.toNat) = Nat.toDigits 16 a.toNat := by
    simp [hexText, heq, dropHexPrefix, hfirst]
  have hread : readDigits 16 0 0 (Nat.toDigits 16 a.toNat) =
      (a.toNat, (Nat.toDigits 16 a.toNat).length, []) := by
    simpa using readDigits_toDigits hlow hhigh a.toNat
      (startsWithNoDigit_nil 16)
  have hsign : readSign ((hexText a.toNat).dropWhile isSpace) = (false, hexText a.toNat) := by
    simp [hexText, isSpace, readSign]
  have hcount : (Nat.toDigits 16 a.toNat).length ≠ 0 := by
    simp [heq]
  have hbound : ¬ 2 ^ w ≤ a.toNat := by
    have := a.isLt
    omega
  simp [stoull, hsign, hhead, hread, hcount, hbound]

/-- No digit is an underscore, so a written numeral is one group of digits. -/
theorem digitChar_ne_underscore {radix value : Nat} (hradix : radix ≤ 16)
    (hvalue : value < radix) : Nat.digitChar value ≠ '_' := by
  intro h
  have hnone : digitValue '_' = none := by decide
  have hsome := digitIn_digitChar hradix hvalue
  rw [h] at hsome
  simp [digitIn, hnone] at hsome

theorem dropPrefixUnderscore_of_ne {radix : Nat} {c : Char} (rest : List Char)
    (h : c ≠ '_') : dropPrefixUnderscore radix (c :: rest) = c :: rest := by
  unfold dropPrefixUnderscore
  split
  · rename_i heq
    exact absurd (List.cons.inj heq).1 h
  · rfl

/-- On plain digits the grouped loop is the ungrouped one. -/
theorem readGroupedDigits_digits {radix : Nat} (hradix : radix ≤ 16) :
    ∀ (text : List Char) (acc count : Nat),
      (∀ c ∈ text, ∃ value < radix, c = Nat.digitChar value) →
      readGroupedDigits radix acc count false text = some (readDigits radix acc count text) := by
  intro text
  induction text with
  | nil => intro acc count _; rfl
  | cons c rest ih =>
      intro acc count hdigits
      obtain ⟨value, hvalue, rfl⟩ := hdigits c List.mem_cons_self
      have hunder := digitChar_ne_underscore hradix hvalue
      rw [readDigits_digit hradix hvalue]
      simp only [readGroupedDigits, hunder, if_false, digitIn_digitChar hradix hvalue]
      exact ih _ _ (fun d hd => hdigits d (List.mem_cons_of_mem _ hd))

theorem intBaseZero_hexText (n : Nat) : intBaseZero (hexText n) = some (n : Int) := by
  have hlow : 1 < 16 := by omega
  have hhigh : 16 ≤ 16 := Nat.le_refl 16
  obtain ⟨value, rest, hvalue, heq⟩ := toDigits_eq_cons hlow hhigh n
  have hgroup : readGroupedDigits 16 0 0 false (Nat.toDigits 16 n) =
      some (n, (Nat.toDigits 16 n).length, []) := by
    rw [readGroupedDigits_digits (by omega) _ _ _ (mem_toDigits (by omega) n)]
    simpa using readDigits_toDigits hlow hhigh n
      (startsWithNoDigit_nil 16)
  have hunder := digitChar_ne_underscore (by omega) hvalue
  have hdrop : dropPrefixUnderscore 16 (Nat.toDigits 16 n) = Nat.toDigits 16 n := by
    rw [heq, dropPrefixUnderscore_of_ne rest hunder]
  have hhead : (Nat.toDigits 16 n).head? ≠ some '_' := by
    simp [heq, hunder]
  have hsign : readSign ((hexText n).dropWhile isSpace) = (false, hexText n) := by
    simp [hexText, isSpace, readSign]
  have hdetect : detectRadix (hexText n) = (16, Nat.toDigits 16 n, false) := by
    simp [hexText, detectRadix]
  have hcount : (Nat.toDigits 16 n).length ≠ 0 := by
    simp [heq]
  simp [intBaseZero, hsign, hdetect, hdrop, hhead, hgroup, hcount]

end Icflow.Foundation
