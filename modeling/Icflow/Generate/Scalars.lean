import Icflow.Generate.Tokens

set_option autoImplicit false

/-!
# Constants and numbers, read twice

`NUMBER_RE` takes a fraction or an exponent only as a whole; the number automaton has no way
back behind a point or an `e`.  What it does not take begins with one of these, as no token
does.
-/

namespace Icflow.Generate

open Icflow.Foundation
open Icflow.Foundation.Json (codePointDialect NumberState)

/-! ## The number automaton -/

section Automaton

variable {c : Char} {rest text : List Char}

theorem scanNumber_step (state : NumberState) (c : Char) (rest : List Char) :
    Json.scanNumber state (c :: rest) =
      match Json.numberStep state c with
      | some state' =>
          (Json.scanNumber state' rest).map fun result => (c :: result.1, result.2)
      | none => if state.accepting then some ([], c :: rest) else none := by
  rw [Json.scanNumber]
  cases Json.numberStep state c with
  | none => rfl
  | some state' =>
      dsimp only
      cases Json.scanNumber state' rest <;> rfl

/-- The digits at the front, and what follows them. -/
def digits (text : List Char) : List Char := text.takeWhile Json.isDigit

def behindDigits (text : List Char) : List Char := text.dropWhile Json.isDigit

theorem digits_cons (hdigit : Json.isDigit c = true) (rest : List Char) :
    digits (c :: rest) = c :: digits rest ∧ behindDigits (c :: rest) = behindDigits rest :=
  ⟨List.takeWhile_cons_of_pos hdigit, List.dropWhile_cons_of_pos hdigit⟩

theorem digits_cons_of_not (hdigit : Json.isDigit c = false) (rest : List Char) :
    digits (c :: rest) = [] ∧ behindDigits (c :: rest) = c :: rest := by
  have hnot : ¬ Json.isDigit c = true := Bool.eq_false_iff.mp hdigit
  exact ⟨List.takeWhile_cons_of_neg hnot, List.dropWhile_cons_of_neg hnot⟩

/-- The sign of an exponent, and what follows it. -/
def sign (text : List Char) : List Char :=
  if text.head? = some '+' ∨ text.head? = some '-' then text.take 1 else []

/-- An exponent, if there is one; `none` is an `e` without one. -/
def exponentPart : List Char → Option (List Char × List Char)
  | [] => some ([], [])
  | c :: rest =>
      if c = 'e' ∨ c = 'E' then
        (Json.scanNumber .exponent rest).map fun result => (c :: result.1, result.2)
      else some ([], c :: rest)

/-- A fraction and an exponent, if there are any. -/
def fractionPart : List Char → Option (List Char × List Char)
  | [] => some ([], [])
  | c :: rest =>
      if c = '.' then
        (Json.scanNumber .decimal1 rest).map fun result => (c :: result.1, result.2)
      else exponentPart (c :: rest)

theorem scanNumber_any2 (text : List Char) :
    Json.scanNumber .any2 text = some (digits text, behindDigits text) := by
  induction text with
  | nil => rfl
  | cons c rest ih =>
      rw [scanNumber_step, Json.numberStep]
      cases hdigit : Json.isDigit c with
      | true =>
          obtain ⟨hfront, hbehind⟩ := digits_cons hdigit rest
          rw [hfront, hbehind, if_pos rfl]
          dsimp only
          rw [ih, Option.map_some]
      | false =>
          obtain ⟨hfront, hbehind⟩ := digits_cons_of_not hdigit rest
          rw [hfront, hbehind, if_neg Bool.false_ne_true]
          rfl

theorem scanNumber_decimal2 (text : List Char) :
    Json.scanNumber .decimal2 text = (exponentPart (behindDigits text)).map fun result =>
      (digits text ++ result.1, result.2) := by
  induction text with
  | nil => rfl
  | cons c rest ih =>
      rw [scanNumber_step, Json.numberStep]
      cases hdigit : Json.isDigit c with
      | true =>
          obtain ⟨hfront, hbehind⟩ := digits_cons hdigit rest
          rw [hfront, hbehind, if_pos rfl]
          dsimp only
          rw [ih, Option.map_map]
          rfl
      | false =>
          obtain ⟨hfront, hbehind⟩ := digits_cons_of_not hdigit rest
          rw [hfront, hbehind, if_neg Bool.false_ne_true, exponentPart]
          by_cases he : c = 'e' ∨ c = 'E'
          · rw [if_pos he, if_pos he, Option.map_map]
            rfl
          · rw [if_neg he, if_neg he]
            rfl

theorem scanNumber_any1 (text : List Char) :
    Json.scanNumber .any1 text = (fractionPart (behindDigits text)).map fun result =>
      (digits text ++ result.1, result.2) := by
  induction text with
  | nil => rfl
  | cons c rest ih =>
      rw [scanNumber_step, Json.numberStep]
      cases hdigit : Json.isDigit c with
      | true =>
          obtain ⟨hfront, hbehind⟩ := digits_cons hdigit rest
          rw [hfront, hbehind, if_pos rfl]
          dsimp only
          rw [ih, Option.map_map]
          rfl
      | false =>
          obtain ⟨hfront, hbehind⟩ := digits_cons_of_not hdigit rest
          rw [hfront, hbehind, if_neg Bool.false_ne_true, fractionPart, exponentPart]
          by_cases hpoint : c = '.'
          · rw [if_pos hpoint, if_pos hpoint, Option.map_map]
            rfl
          · rw [if_neg hpoint, if_neg hpoint]
            by_cases he : c = 'e' ∨ c = 'E'
            · rw [if_pos he, if_pos he, Option.map_map]
              rfl
            · rw [if_neg he, if_neg he]
              rfl

theorem scanNumber_zero (text : List Char) :
    Json.scanNumber .zero text = fractionPart text := by
  cases text with
  | nil => rfl
  | cons c rest =>
      rw [scanNumber_step, Json.numberStep, fractionPart, exponentPart]
      by_cases hpoint : c = '.'
      · rw [if_pos hpoint, if_pos hpoint]
      · rw [if_neg hpoint, if_neg hpoint]
        by_cases he : c = 'e' ∨ c = 'E'
        · rw [if_pos he, if_pos he]
        · rw [if_neg he, if_neg he]
          rfl

/-- A state that wants a digit and then more of them. -/
theorem scanNumber_digits {state : NumberState} (next : NumberState)
    (haccepting : state.accepting = false)
    (hstep : ∀ c, Json.numberStep state c = if Json.isDigit c then some next else none)
    (text : List Char) :
    Json.scanNumber state text =
      if digits text = [] then none
      else (Json.scanNumber next text.tail).map fun result => (text.take 1 ++ result.1, result.2) := by
  cases text with
  | nil =>
      rw [Json.scanNumber, haccepting]
      rfl
  | cons c rest =>
      rw [scanNumber_step, hstep]
      cases hdigit : Json.isDigit c with
      | true =>
          obtain ⟨hfront, _⟩ := digits_cons hdigit rest
          rw [hfront, if_pos rfl, if_neg (List.cons_ne_nil _ _)]
          rfl
      | false =>
          obtain ⟨hfront, _⟩ := digits_cons_of_not hdigit rest
          rw [hfront, if_neg Bool.false_ne_true, if_pos rfl, haccepting]
          rfl

/-- The state after the first of the digits takes the others. -/
theorem scanNumber_tail {next : NumberState} {part : List Char → Option (List Char × List Char)}
    (hnext : ∀ text, Json.scanNumber next text = (part (behindDigits text)).map fun result =>
      (digits text ++ result.1, result.2)) (hdigits : digits text ≠ []) :
    (Json.scanNumber next text.tail).map (fun result => (text.take 1 ++ result.1, result.2)) =
      (part (behindDigits text)).map fun result => (digits text ++ result.1, result.2) := by
  cases text with
  | nil => exact absurd rfl hdigits
  | cons c rest =>
      cases hdigit : Json.isDigit c with
      | true =>
          obtain ⟨hfront, hbehind⟩ := digits_cons hdigit rest
          rw [hfront, hbehind, List.tail_cons, hnext, Option.map_map]
          rfl
      | false => exact absurd (digits_cons_of_not hdigit rest).1 hdigits

theorem scanNumber_decimal1 (text : List Char) :
    Json.scanNumber .decimal1 text =
      if digits text = [] then none
      else (exponentPart (behindDigits text)).map fun result => (digits text ++ result.1, result.2) := by
  rw [scanNumber_digits .decimal2 rfl fun c => rfl]
  split
  · rfl
  · rename_i hdigits
    exact scanNumber_tail scanNumber_decimal2 hdigits

theorem scanNumber_sign (text : List Char) :
    Json.scanNumber .sign text =
      if digits text = [] then none else some (digits text, behindDigits text) := by
  have hany : ∀ text, Json.scanNumber .any2 text =
      (some ([], behindDigits text)).map fun result => (digits text ++ result.1, result.2) := by
    intro text
    rw [scanNumber_any2, Option.map_some, List.append_nil]
  rw [scanNumber_digits .any2 rfl fun c => rfl]
  split
  · rfl
  · rename_i hdigits
    have htail := @scanNumber_tail text .any2 (fun rest => some ([], rest)) hany hdigits
    rw [htail, Option.map_some, List.append_nil]

theorem sign_cons (hsign : c = '+' ∨ c = '-') (rest : List Char) : sign (c :: rest) = [c] := by
  rw [sign, List.head?_cons, if_pos]
  · rfl
  · exact hsign.imp (congrArg some) (congrArg some)

theorem sign_cons_of_not (hsign : ¬(c = '+' ∨ c = '-')) (rest : List Char) :
    sign (c :: rest) = [] := by
  rw [sign, List.head?_cons, if_neg]
  exact fun h => hsign (h.imp Option.some.inj Option.some.inj)

/-- The sign of an exponent, its digits and what follows them. -/
theorem scanNumber_exponent (text : List Char) :
    Json.scanNumber .exponent text =
      if digits (text.drop (sign text).length) = [] then none
      else some (sign text ++ digits (text.drop (sign text).length),
        behindDigits (text.drop (sign text).length)) := by
  cases text with
  | nil => rfl
  | cons c rest =>
      rw [scanNumber_step, Json.numberStep]
      by_cases hsign : c = '+' ∨ c = '-'
      · rw [if_pos hsign, sign_cons hsign, List.length_singleton, List.drop_one, List.tail_cons]
        dsimp only
        rw [scanNumber_sign]
        split
        · rfl
        · rfl
      · rw [if_neg hsign, sign_cons_of_not hsign, List.length_nil, List.drop_zero]
        cases hdigit : Json.isDigit c with
        | true =>
            obtain ⟨hfront, hbehind⟩ := digits_cons hdigit rest
            rw [hfront, hbehind, if_pos rfl, if_neg (List.cons_ne_nil _ _)]
            dsimp only
            rw [scanNumber_any2]
            rfl
        | false =>
            obtain ⟨hfront, _⟩ := digits_cons_of_not hdigit rest
            rw [hfront, if_neg Bool.false_ne_true, if_pos rfl]
            rfl

end Automaton

/-! ## The parts of a number -/

section Parts

variable {c : Char} {rest text : List Char}

/-- No token begins here. -/
def Stuck (text : List Char) : Prop :=
  ∃ c rest, text = c :: rest ∧ (c = '.' ∨ c = 'e' ∨ c = 'E')

theorem codes_eq_nil_iff : codes text = [] ↔ text = [] := List.map_eq_nil_iff

theorem drop_codes (count : Nat) (text : List Char) :
    (codes text).drop count = codes (text.drop count) := by
  rw [codes, codes, List.map_drop]

theorem sign_codes (text : List Char) :
    (if (codes text).head? = some 43 ∨ (codes text).head? = some 45 then (codes text).take 1
      else []) = codes (sign text) := by
  cases text with
  | nil => rfl
  | cons c rest =>
      have hplus : (codes (c :: rest)).head? = some 43 ↔ c = '+' := by
        rw [codes_cons, List.head?_cons, Option.some.injEq]
        exact @Char.toNat_inj c '+'
      have hminus : (codes (c :: rest)).head? = some 45 ↔ c = '-' := by
        rw [codes_cons, List.head?_cons, Option.some.injEq]
        exact @Char.toNat_inj c '-'
      simp only [hplus, hminus]
      split
      · rename_i hsign
        rw [sign_cons hsign]
        rfl
      · rename_i hsign
        rw [sign_cons_of_not hsign]
        rfl

theorem scanExponent_codes (text : List Char) :
    (∃ part rest, exponentPart text = some (part, rest) ∧
        scanExponent (codes text) = (codes part, codes rest)) ∨
      (exponentPart text = none ∧ scanExponent (codes text) = ([], codes text) ∧ Stuck text) := by
  cases text with
  | nil => exact Or.inl ⟨[], [], rfl, rfl⟩
  | cons c rest =>
      have hletter : c.toNat = 101 ∨ c.toNat = 69 ↔ c = 'e' ∨ c = 'E' :=
        or_congr (@Char.toNat_inj c 'e') (@Char.toNat_inj c 'E')
      have hscan : scanExponent (codes (c :: rest)) =
          if (c = 'e' ∨ c = 'E') ∧ digits (rest.drop (sign rest).length) ≠ [] then
            (codes (c :: (sign rest ++ digits (rest.drop (sign rest).length))),
              codes (behindDigits (rest.drop (sign rest).length)))
          else ([], codes (c :: rest)) := by
        rw [codes_cons, scanExponent]
        rw [sign_codes, length_codes, drop_codes, takeWhile_codes, dropWhile_codes]
        simp only [hletter, ne_eq, codes_eq_nil_iff]
        rw [codes_cons, codes_append]
        rfl
      rw [hscan, exponentPart, scanNumber_exponent]
      by_cases he : c = 'e' ∨ c = 'E'
      · rw [if_pos he]
        by_cases hdigits : digits (rest.drop (sign rest).length) = []
        · rw [if_pos hdigits, if_neg fun h => h.2 hdigits]
          exact Or.inr ⟨rfl, rfl, c, rest, rfl, Or.inr he⟩
        · rw [if_neg hdigits, if_pos ⟨he, hdigits⟩]
          exact Or.inl ⟨_, _, rfl, rfl⟩
      · rw [if_neg he, if_neg fun h => he h.1]
        exact Or.inl ⟨[], c :: rest, rfl, rfl⟩

/-- A fraction and an exponent, as `NUMBER_RE` takes them. -/
theorem scanFraction_codes (text : List Char) :
    (∃ part rest, fractionPart text = some (part, rest) ∧
        (scanFraction (codes text)).1 ++ (scanExponent (scanFraction (codes text)).2).1 =
          codes part ∧ (scanExponent (scanFraction (codes text)).2).2 = codes rest) ∨
      (fractionPart text = none ∧ ∃ rest,
        (scanExponent (scanFraction (codes text)).2).2 = codes rest ∧ Stuck rest) := by
  have hwithout (hnone : scanFraction (codes text) = ([], codes text))
      (hpart : fractionPart text = exponentPart text) :
      (∃ part rest, fractionPart text = some (part, rest) ∧
        (scanFraction (codes text)).1 ++ (scanExponent (scanFraction (codes text)).2).1 =
          codes part ∧ (scanExponent (scanFraction (codes text)).2).2 = codes rest) ∨
      (fractionPart text = none ∧ ∃ rest,
        (scanExponent (scanFraction (codes text)).2).2 = codes rest ∧ Stuck rest) := by
    rw [hnone, hpart, List.nil_append]
    rcases scanExponent_codes text with ⟨part, rest, hread, hscan⟩ | ⟨hread, hscan, hstuck⟩
    · exact Or.inl ⟨part, rest, hread, by rw [hscan], by rw [hscan]⟩
    · exact Or.inr ⟨hread, text, by rw [hscan], hstuck⟩
  cases text with
  | nil => exact hwithout rfl rfl
  | cons c rest =>
      have hpoint : c.toNat = 46 ↔ c = '.' := @Char.toNat_inj c '.'
      have hscan : scanFraction (codes (c :: rest)) =
          if c = '.' ∧ digits rest ≠ [] then
            (codes ('.' :: digits rest), codes (behindDigits rest))
          else ([], codes (c :: rest)) := by
        rw [scanFraction]
        simp only [codes_cons, List.head?_cons, Option.some.injEq, hpoint, List.tail_cons,
          takeWhile_codes, dropWhile_codes, ne_eq, codes_eq_nil_iff]
        rfl
      by_cases hfraction : c = '.'
      · subst hfraction
        by_cases hdigits : digits rest = []
        · rw [if_neg fun h => h.2 hdigits] at hscan
          right
          refine ⟨?_, '.' :: rest, ?_, '.', rest, rfl, Or.inl rfl⟩
          · rw [fractionPart, if_pos rfl, scanNumber_decimal1, if_pos hdigits]
            rfl
          · rw [hscan]
            rfl
        · rw [if_pos ⟨rfl, hdigits⟩] at hscan
          rw [hscan, fractionPart, if_pos rfl, scanNumber_decimal1, if_neg hdigits]
          rcases scanExponent_codes (behindDigits rest) with
            ⟨part, behind, hread, hexponent⟩ | ⟨hread, hexponent, hstuck⟩
          · rw [hread, hexponent]
            exact Or.inl ⟨_, behind, rfl, (codes_append _ _).symm, rfl⟩
          · rw [hread, hexponent]
            exact Or.inr ⟨rfl, _, rfl, hstuck⟩
      · rw [if_neg fun h => hfraction h.1] at hscan
        apply hwithout hscan
        rw [fractionPart, if_neg hfraction]

end Parts

/-! ## Numbers -/

section Numbers

variable {c : Char} {rest text : List Char}

/-- The state behind the first digit. -/
def afterDigit (c : Char) : NumberState := if c = '0' then .zero else .any1

theorem scanInteger_codes (hdigit : Json.isDigit c = true) (rest : List Char) :
    ∃ part behind, scanInteger (codes (c :: rest)) = some (codes (c :: part), codes behind) ∧
      Json.scanNumber (afterDigit c) rest = (fractionPart behind).map fun result =>
        (part ++ result.1, result.2) := by
  have hzero : c.toNat = 48 ↔ c = '0' := @Char.toNat_inj c '0'
  rw [codes_cons, scanInteger, afterDigit, isDigit_toNat, hdigit]
  simp only [hzero]
  by_cases h : c = '0'
  · rw [if_pos h, if_pos h, scanNumber_zero]
    exact ⟨[], rest, rfl, Option.map_id'.symm⟩
  · rw [if_neg h, if_neg h, if_pos trivial, scanNumber_any1, takeWhile_codes, dropWhile_codes]
    exact ⟨digits rest, behindDigits rest, rfl, rfl⟩

theorem scanInteger_codes_of_not (hdigit : Json.isDigit c = false) (rest : List Char) :
    scanInteger (codes (c :: rest)) = none := by
  have hzero : c.toNat ≠ 48 := by
    intro h
    obtain rfl := (@Char.toNat_inj c '0').mp h
    cases hdigit
  rw [codes_cons, scanInteger, if_neg hzero, isDigit_toNat, hdigit]
  rfl

/-- What `NUMBER_RE` makes of a text, beside a result of the automaton. -/
def NumberAgrees (text : List Char) (result : Option (List Char × List Char)) : Prop :=
  (∃ lexeme rest, result = some (lexeme, rest) ∧
      scanNumber (codes text) = some (.num lexeme, codes rest)) ∨
    (result = none ∧ (scanNumber (codes text) = none ∨
      ∃ value rest, scanNumber (codes text) = some (value, codes rest) ∧ Stuck rest))

/-- A number behind its sign. -/
theorem numberAgrees_of_digit {front : List Char} (hdigit : Json.isDigit c = true)
    (hfront : (if (codes (front ++ c :: rest)).head? = some 45 then [45] else []) = codes front) :
    NumberAgrees (front ++ c :: rest) ((Json.scanNumber (afterDigit c) rest).map fun result =>
      (front ++ c :: result.1, result.2)) := by
  obtain ⟨part, behind, hinteger, hscan⟩ := scanInteger_codes hdigit rest
  have hread : scanNumber (codes (front ++ c :: rest)) =
      some (.num ((codes front ++ codes (c :: part) ++ (scanFraction (codes behind)).1 ++
          (scanExponent (scanFraction (codes behind)).2).1).map Char.ofNat),
        (scanExponent (scanFraction (codes behind)).2).2) := by
    rw [scanNumber]
    dsimp only
    rw [hfront, length_codes, drop_codes, List.drop_left, hinteger]
  rw [hscan]
  rcases scanFraction_codes behind with ⟨more, after, hparts, hfound, hafter⟩ |
    ⟨hparts, after, hafter, hstuck⟩
  · left
    refine ⟨front ++ c :: (part ++ more), after, ?_, ?_⟩
    · rw [hparts]
      rfl
    · rw [hread, hafter, List.append_assoc, List.append_assoc, hfound, ← codes_append, ← codes_append,
        ofNat_codes]
      rfl
  · right
    rw [hafter] at hread
    refine ⟨?_, Or.inr ⟨_, after, hread, hstuck⟩⟩
    rw [hparts]
    rfl

theorem numberAgrees_digit (hdigit : Json.isDigit c = true) (rest : List Char) :
    NumberAgrees (c :: rest) ((Json.scanNumber (afterDigit c) rest).map fun result =>
      (c :: result.1, result.2)) := by
  have hminus : (codes (c :: rest)).head? ≠ some 45 := by
    intro h
    obtain rfl := (@Char.toNat_inj c '-').mp (Option.some.inj h)
    cases hdigit
  have hagrees : NumberAgrees ([] ++ c :: rest) _ := numberAgrees_of_digit hdigit (if_neg hminus)
  exact hagrees

theorem numberAgrees_minus (rest : List Char) :
    NumberAgrees ('-' :: rest) ((Json.scanNumber .minus rest).map fun result =>
      ('-' :: result.1, result.2)) := by
  cases rest with
  | nil => exact Or.inr ⟨rfl, Or.inl rfl⟩
  | cons c rest =>
      rw [scanNumber_step, Json.numberStep]
      cases hdigit : Json.isDigit c with
      | true =>
          have hstep : (if c = '0' then some NumberState.zero
              else if true then some NumberState.any1 else none) = some (afterDigit c) := by
            unfold afterDigit
            split
            · rfl
            · rfl
          have hagrees : NumberAgrees (['-'] ++ c :: rest) _ := numberAgrees_of_digit hdigit rfl
          rw [hstep]
          dsimp only
          rw [Option.map_map]
          exact hagrees
      | false =>
          have hzero : c ≠ '0' := by
            rintro rfl
            cases hdigit
          have hread : scanNumber (codes ('-' :: c :: rest)) = none := by
            have hsign : (codes ('-' :: c :: rest)).head? = some 45 := rfl
            have hdrop : (codes ('-' :: c :: rest)).drop [45].length = codes (c :: rest) := rfl
            rw [scanNumber]
            dsimp only
            rw [if_pos hsign, hdrop, scanInteger_codes_of_not hdigit]
          rw [if_neg hzero]
          exact Or.inr ⟨rfl, Or.inl hread⟩

end Numbers

/-! ## Tokens -/

section Tokens

variable {c : Char} {rest text literal : List Char}

/-- A literal is a prefix of the text in both. -/
theorem scanLiteral_codes (literal text : List Char) :
    (∃ rest, Json.scanLiteral literal text = some rest ∧
        (codes literal).isPrefixOf (codes text) = true ∧
          (codes text).drop literal.length = codes rest) ∨
      (Json.scanLiteral literal text = none ∧
        (codes literal).isPrefixOf (codes text) = false) := by
  induction literal generalizing text with
  | nil => exact Or.inl ⟨text, rfl, rfl, rfl⟩
  | cons expected literal ih =>
      cases text with
      | nil => exact Or.inr ⟨rfl, rfl⟩
      | cons c rest =>
          rw [Json.scanLiteral, codes_cons, codes_cons, List.isPrefixOf_cons_cons, List.length_cons,
            List.drop_succ_cons]
          by_cases h : c = expected
          · rw [if_pos h, h, beq_self_eq_true, Bool.true_and]
            exact ih rest
          · have hne : (expected.toNat == c.toNat) = false :=
              beq_eq_false_iff_ne.mpr fun heq => h (Char.toNat_inj.mp heq).symm
            rw [if_neg h, hne, Bool.false_and]
            exact Or.inr ⟨rfl, rfl⟩

theorem head?_of_isPrefixOf {name input : Name} {point : Nat} (hne : name ≠ [])
    (h : name.isPrefixOf (point :: input) = true) : name.head? = some point := by
  cases name with
  | nil => exact absurd rfl hne
  | cons first name =>
      rw [List.isPrefixOf_cons_cons, Bool.and_eq_true, beq_iff_eq] at h
      rw [List.head?_cons, h.1]

/-- Among names with different first characters at most one is a prefix. -/
theorem find?_isPrefixOf {entries : List (Name × Json Nat)} (hne : ∀ entry ∈ entries, entry.1 ≠ [])
    (hheads : entries.Pairwise fun a b => a.1.head? ≠ b.1.head?) (point : Nat) (input : Name) :
    entries.find? (fun entry => entry.1.isPrefixOf (point :: input)) =
      (entries.find? fun entry => entry.1.head? == some point).filter fun entry =>
        entry.1.isPrefixOf (point :: input) := by
  induction entries with
  | nil => rfl
  | cons entry entries ih =>
      obtain ⟨hfirst, hrest⟩ := List.forall_mem_cons.mp hne
      obtain ⟨hother, hlater⟩ := List.pairwise_cons.mp hheads
      rw [List.find?_cons, List.find?_cons]
      by_cases hhead : entry.1.head? = some point
      · rw [hhead, beq_self_eq_true]
        dsimp only
        cases hbegins : entry.1.isPrefixOf (point :: input) with
        | true => rw [Option.filter_some, if_pos hbegins]
        | false =>
            have hnone : entries.find? (fun entry => entry.1.isPrefixOf (point :: input)) = none := by
              rw [List.find?_eq_none]
              intro other hmem hfound
              apply hother other hmem
              rw [hhead, head?_of_isPrefixOf (hrest other hmem) hfound]
            rw [hnone, Option.filter_some, if_neg (Bool.eq_false_iff.mp hbegins)]
      · have hbegins : entry.1.isPrefixOf (point :: input) = false := by
          rw [← Bool.not_eq_true]
          exact fun hfound => hhead (head?_of_isPrefixOf hfirst hfound)
        rw [hbegins, beq_eq_false_iff_ne.mpr hhead]
        exact ih hrest hlater

/-- The constant that begins with a character. -/
def constantAt (c : Char) : Option (Name × Json Nat) :=
  constants.find? fun constant => constant.1.head? == some c.toNat

theorem scanScalar_codes (c : Char) (rest : List Char) :
    scanScalar (codes (c :: rest)) =
      match (constantAt c).filter fun constant => constant.1.isPrefixOf (codes (c :: rest)) with
      | some constant => some (constant.2, (codes (c :: rest)).drop constant.1.length)
      | none => scanNumber (codes (c :: rest)) := by
  have hne : ∀ constant ∈ constants, constant.1 ≠ [] := by decide
  have hheads : constants.Pairwise fun a b => a.1.head? ≠ b.1.head? := by decide
  have hfind := find?_isPrefixOf hne hheads c.toNat (codes rest)
  exact congrArg (fun found : Option (Name × Json Nat) =>
    match found with
    | some constant => some (constant.2, (codes (c :: rest)).drop constant.1.length)
    | none => scanNumber (codes (c :: rest))) hfind

theorem scanScalar_of_none (hnone : constantAt c = none) (rest : List Char) :
    scanScalar (codes (c :: rest)) = scanNumber (codes (c :: rest)) := by
  rw [scanScalar_codes, hnone]
  rfl

theorem scanScalar_of_constant {value : Json Nat} (hconstant : constantAt c =
    some (codes (c :: literal), value)) (rest : List Char) :
    scanScalar (codes (c :: rest)) =
      if (codes literal).isPrefixOf (codes rest) then
        some (value, (codes rest).drop literal.length)
      else scanNumber (codes (c :: rest)) := by
  have hbegins : (codes (c :: literal)).isPrefixOf (codes (c :: rest)) =
      (codes literal).isPrefixOf (codes rest) := by
    rw [codes_cons, codes_cons, List.isPrefixOf_cons_cons, beq_self_eq_true, Bool.true_and]
  rw [scanScalar_codes, hconstant, Option.filter_some, hbegins]
  split
  · rename_i constant hfound
    split at hfound
    · rename_i hyes
      obtain rfl := Option.some.inj hfound
      rw [if_pos hyes]
      dsimp only
      rw [length_codes]
      rfl
    · cases hfound
  · rename_i hfound
    split at hfound
    · cases hfound
    · rename_i hno
      rw [if_neg hno]

/-- `NUMBER_RE` does not match. -/
theorem scanNumber_of_not_digit (hminus : c ≠ '-') (hdigit : Json.isDigit c = false)
    (rest : List Char) : scanNumber (codes (c :: rest)) = none := by
  have hsign : (codes (c :: rest)).head? ≠ some 45 :=
    fun h => hminus ((@Char.toNat_inj c '-').mp (Option.some.inj h))
  rw [scanNumber]
  dsimp only
  rw [if_neg hsign, List.length_nil, List.drop_zero, scanInteger_codes_of_not hdigit]

/-- What the two make of a text whose first character neither quotes nor opens. -/
def ScalarAgrees (c : Char) (rest : List Char) : Prop :=
  (∃ value tail, scanScalar (codes (c :: rest)) = some (value, codes tail) ∧
      (Json.tokenAt codePointDialect c rest).2 = tail ∧ ∀ stack,
        Json.valueToken stack (Json.tokenAt codePointDialect c rest).1 =
          Json.complete stack value) ∨
    ((∀ stack, Json.valueToken stack (Json.tokenAt codePointDialect c rest).1 = .reject) ∧
      (scanScalar (codes (c :: rest)) = none ∨
        ∃ value tail, scanScalar (codes (c :: rest)) = some (value, codes tail) ∧ Stuck tail))

theorem scalarAgrees_literal {token : Json.Token Nat} {value : Json Nat} (hminus : c ≠ '-')
    (hdigit : Json.isDigit c = false)
    (htoken : Json.tokenAt codePointDialect c rest = Json.literalToken literal token rest)
    (hvalue : ∀ stack, Json.valueToken stack token = Json.complete stack value)
    (hconstant : constantAt c = some (codes (c :: literal), value)) : ScalarAgrees c rest := by
  rw [ScalarAgrees, htoken, Json.literalToken, scanScalar_of_constant hconstant]
  rcases scanLiteral_codes literal rest with ⟨tail, hscan, hbegins, hdrop⟩ | ⟨hscan, hbegins⟩
  · rw [hscan, hbegins, if_pos rfl, hdrop]
    exact Or.inl ⟨value, tail, rfl, rfl, hvalue⟩
  · rw [hscan, hbegins, if_neg Bool.false_ne_true]
    exact Or.inr ⟨fun _ => rfl, Or.inl (scanNumber_of_not_digit hminus hdigit rest)⟩

theorem scalarAgrees_number {state : NumberState}
    (htoken : Json.tokenAt codePointDialect c rest = Json.numberToken c state rest)
    (hscan : scanScalar (codes (c :: rest)) = scanNumber (codes (c :: rest)))
    (hagrees : NumberAgrees (c :: rest) ((Json.scanNumber state rest).map fun result =>
      (c :: result.1, result.2))) : ScalarAgrees c rest := by
  rw [ScalarAgrees, htoken, hscan, Json.numberToken]
  rcases hagrees with ⟨lexeme, tail, hresult, hread⟩ | ⟨hresult, hread⟩
  · obtain ⟨⟨digits, tail'⟩, hfound, hpair⟩ := Option.map_eq_some_iff.mp hresult
    obtain ⟨rfl, rfl⟩ := Prod.mk.inj hpair
    rw [hfound]
    exact Or.inl ⟨_, _, hread, rfl, fun _ => rfl⟩
  · rw [Option.map_eq_none_iff.mp hresult]
    exact Or.inr ⟨fun _ => rfl, hread⟩

theorem constantAt_digit (hdigit : Json.isDigit c = true) : constantAt c = none := by
  have hheads : ∀ constant ∈ constants, constant.1.head?.all (fun n => n < 48 || 57 < n) = true := by
    decide
  rw [constantAt, List.find?_eq_none]
  intro constant hmem hhead
  have hrange := hheads constant hmem
  rw [beq_iff_eq.mp hhead] at hrange
  rw [← isDigit_toNat, isDigit] at hdigit
  simp only [Option.all_some, Bool.or_eq_true, Bool.and_eq_true, decide_eq_true_eq] at hrange hdigit
  omega

theorem tokenAt_digit (hdigit : Json.isDigit c = true) (rest : List Char) :
    Json.tokenAt codePointDialect c rest = Json.numberToken c (afterDigit c) rest := by
  unfold Json.tokenAt
  split
  case h_12 => rfl
  case h_15 hzero _ _ =>
    rw [if_pos hdigit, afterDigit, if_neg hzero]
  all_goals cases hdigit

theorem tokenAt_minus (rest : List Char) :
    Json.tokenAt codePointDialect '-' rest =
      match Json.scanLiteral "Infinity".toList rest with
      | some tail => (.num "-Infinity".toList, tail)
      | none => Json.numberToken '-' .minus rest := by
  have htoken : Json.tokenAt codePointDialect '-' rest = Json.minusToken codePointDialect rest := rfl
  have hletters : Json.scanLiteral ['I', 'n', 'f', 'i', 'n', 'i', 't', 'y'] rest =
      Json.scanLiteral "Infinity".toList rest := rfl
  rw [htoken]
  unfold Json.minusToken
  rw [hletters]
  cases Json.scanLiteral "Infinity".toList rest with
  | none => rfl
  | some tail => rfl

theorem scalarAgrees_minus (rest : List Char) : ScalarAgrees '-' rest := by
  have hconstant : constantAt '-' = some (codes ('-' :: "Infinity".toList), .num "-Infinity".toList) :=
    rfl
  have hscan := scanScalar_of_constant hconstant rest
  have htoken := tokenAt_minus rest
  rcases scanLiteral_codes "Infinity".toList rest with
    ⟨tail, hliteral, hbegins, hdrop⟩ | ⟨hliteral, hbegins⟩
  · rw [hbegins, if_pos rfl, hdrop] at hscan
    rw [hliteral] at htoken
    rw [ScalarAgrees, htoken, hscan]
    exact Or.inl ⟨_, tail, rfl, rfl, fun _ => rfl⟩
  · rw [hbegins, if_neg Bool.false_ne_true] at hscan
    rw [hliteral] at htoken
    exact scalarAgrees_number htoken hscan (numberAgrees_minus rest)

/-- A character that begins no value. -/
theorem scalarAgrees_none (hletter : c ∉ ['t', 'f', 'n', 'N', 'I', '-'])
    (hdigit : Json.isDigit c = false) (hopen : c ∉ ['"', '{', '[']) (rest : List Char) :
    ScalarAgrees c rest := by
  simp only [List.mem_cons, List.not_mem_nil, or_false, not_or] at hletter hopen
  obtain ⟨ht, hf, hn, hN, hI, hminus⟩ := hletter
  obtain ⟨hquote, hbrace, hbracket⟩ := hopen
  have hheads : ∀ constant ∈ constants,
      constant.1.head? ∈ ['t', 'f', 'n', 'N', 'I', '-'].map fun letter => some letter.toNat := by
    decide
  have hconstant : constantAt c = none := by
    rw [constantAt, List.find?_eq_none]
    intro constant hmem hhead
    obtain ⟨letter, hletter, hfirst⟩ := List.mem_map.mp (hheads constant hmem)
    rw [beq_iff_eq, ← hfirst, Option.some.injEq] at hhead
    obtain rfl := Char.toNat_inj.mp hhead
    simp only [List.mem_cons, List.not_mem_nil, or_false] at hletter
    rcases hletter with h | h | h | h | h | h
    · exact ht h
    · exact hf h
    · exact hn h
    · exact hN h
    · exact hI h
    · exact hminus h
  have htoken : ∀ stack, Json.valueToken stack (Json.tokenAt codePointDialect c rest).1 = .reject := by
    intro stack
    unfold Json.tokenAt
    split
    case h_1 => exact absurd rfl hbracket
    case h_3 => exact absurd rfl hbrace
    case h_7 => exact absurd rfl ht
    case h_8 => exact absurd rfl hf
    case h_9 => exact absurd rfl hn
    case h_10 => exact absurd rfl hquote
    case h_11 => exact absurd rfl hminus
    case h_12 => cases hdigit
    case h_13 => exact absurd rfl hN
    case h_14 => exact absurd rfl hI
    case h_15 =>
      rw [hdigit]
      rfl
    all_goals rfl
  refine Or.inr ⟨htoken, Or.inl ?_⟩
  rw [scanScalar_of_none hconstant, scanNumber_of_not_digit hminus hdigit]

/-- Constants and numbers are read alike, up to what no document goes on with. -/
theorem scalarAgrees (hopen : c ∉ ['"', '{', '[']) (rest : List Char) : ScalarAgrees c rest := by
  cases hdigit : Json.isDigit c with
  | true =>
      exact scalarAgrees_number (tokenAt_digit hdigit rest)
        (scanScalar_of_none (constantAt_digit hdigit) rest) (numberAgrees_digit hdigit rest)
  | false =>
      by_cases hletter : c ∈ ['t', 'f', 'n', 'N', 'I', '-']
      · simp only [List.mem_cons, List.not_mem_nil, or_false] at hletter
        rcases hletter with rfl | rfl | rfl | rfl | rfl | rfl
        · exact scalarAgrees_literal (by decide) hdigit rfl (fun _ => rfl) rfl
        · exact scalarAgrees_literal (by decide) hdigit rfl (fun _ => rfl) rfl
        · exact scalarAgrees_literal (by decide) hdigit rfl (fun _ => rfl) rfl
        · exact scalarAgrees_literal (by decide) hdigit rfl (fun _ => rfl) rfl
        · exact scalarAgrees_literal (by decide) hdigit rfl (fun _ => rfl) rfl
        · exact scalarAgrees_minus rest
      · exact scalarAgrees_none hletter hdigit hopen rest

end Tokens

end Icflow.Generate
