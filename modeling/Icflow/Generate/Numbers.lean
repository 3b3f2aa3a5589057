import Icflow.Foundation.Numeral
import Icflow.Generate.Loads

set_option autoImplicit false

/-!
# Numbers in a document

The decoder reads a number up to the first character that cannot go on with it.  A text
that is read as a number to its end is therefore read in the same way in front of
anything that delimits it, such as the comma or the line break behind a printed number.
-/

namespace Icflow.Generate

open Icflow.Foundation

/-- A character that a number can go on with. -/
def continuesNumber (point : Nat) : Bool :=
  isDigit point || point == 46 || point == 69 || point == 101 || point == 43 || point == 45

/-- Nothing that a number can go on with comes first. -/
def Delimited (tail : Name) : Prop := ∀ point, tail.head? = some point → continuesNumber point = false

/-- The text is read as a number, to its end. -/
def NumberText (spelling : Name) : Prop :=
  scanScalar spelling = some (.num (spelling.map Char.ofNat), [])

theorem delimited_cons {point : Nat} (h : continuesNumber point = false) (rest : Name) :
    Delimited (point :: rest) := by
  intro other hother
  obtain rfl := Option.some.inj hother
  exact h

section Delimiters

variable {tail : Name}

theorem Delimited.head_ne (h : Delimited tail) {point : Nat} (hpoint : continuesNumber point = true) :
    tail.head? ≠ some point := by
  intro hhead
  have hstops := h point hhead
  rw [hpoint] at hstops
  cases hstops

theorem Delimited.not_isDigit (h : Delimited tail) {point : Nat} (hpoint : tail.head? = some point) :
    isDigit point = false := by
  have hstops := h point hpoint
  unfold continuesNumber at hstops
  simp only [Bool.or_eq_false_iff] at hstops
  exact hstops.1.1.1.1.1

/-- Digits end where they end before the delimiter. -/
theorem takeWhile_append (h : Delimited tail) (input : Name) :
    (input ++ tail).takeWhile isDigit = input.takeWhile isDigit := by
  induction input with
  | nil =>
      cases tail with
      | nil => rfl
      | cons point rest => exact List.takeWhile_cons_of_neg (by simp [h.not_isDigit rfl])
  | cons point rest ih => rw [List.cons_append, List.takeWhile_cons, List.takeWhile_cons, ih]

theorem dropWhile_append (h : Delimited tail) (input : Name) :
    (input ++ tail).dropWhile isDigit = input.dropWhile isDigit ++ tail := by
  induction input with
  | nil =>
      cases tail with
      | nil => rfl
      | cons point rest => exact List.dropWhile_cons_of_neg (by simp [h.not_isDigit rfl])
  | cons point rest ih =>
      rw [List.cons_append, List.dropWhile_cons, List.dropWhile_cons, ih]
      split <;> rfl

/-! ## The parts of a number -/

theorem scanInteger_append (h : Delimited tail) {input integer rest : Name}
    (hscan : scanInteger input = some (integer, rest)) :
    scanInteger (input ++ tail) = some (integer, rest ++ tail) := by
  cases input with
  | nil => cases hscan
  | cons point more =>
      rw [scanInteger] at hscan
      rw [List.cons_append, scanInteger, takeWhile_append h, dropWhile_append h]
      split at hscan
      · rename_i hzero
        obtain ⟨rfl, rfl⟩ := Prod.mk.inj (Option.some.inj hscan)
        exact if_pos hzero
      · rename_i hzero
        rw [if_neg hzero]
        split at hscan
        · rename_i hdigit
          obtain ⟨rfl, rfl⟩ := Prod.mk.inj (Option.some.inj hscan)
          exact if_pos hdigit
        · cases hscan

theorem scanFraction_cons (point : Nat) (rest : Name) :
    scanFraction (point :: rest) =
      if point = 46 ∧ rest.takeWhile isDigit ≠ [] then
        (46 :: rest.takeWhile isDigit, rest.dropWhile isDigit)
      else ([], point :: rest) := by
  simp [scanFraction]

theorem scanFraction_append (h : Delimited tail) (input : Name) :
    scanFraction (input ++ tail) = ((scanFraction input).1, (scanFraction input).2 ++ tail) := by
  cases input with
  | nil =>
      have hdot : tail.head? ≠ some 46 := h.head_ne (by decide)
      simp [scanFraction, hdot]
  | cons point rest =>
      rw [List.cons_append, scanFraction_cons, scanFraction_cons, takeWhile_append h,
        dropWhile_append h]
      split
      · rfl
      · rfl

/-- The sign of an exponent. -/
def exponentSign (input : Name) : Name :=
  if input.head? = some 43 ∨ input.head? = some 45 then input.take 1 else []

theorem exponentSign_append (h : Delimited tail) (input : Name) :
    exponentSign (input ++ tail) = exponentSign input ∧
      (input ++ tail).drop (exponentSign input).length =
        input.drop (exponentSign input).length ++ tail := by
  cases input with
  | nil =>
      have hplus : tail.head? ≠ some 43 := h.head_ne (by decide)
      have hminus : tail.head? ≠ some 45 := h.head_ne (by decide)
      simp [exponentSign, hplus, hminus]
  | cons first more =>
      refine ⟨rfl, ?_⟩
      apply List.drop_append_of_le_length
      unfold exponentSign
      split
      · exact List.length_take_le' _ _
      · exact Nat.zero_le _

theorem scanExponent_cons (letter : Nat) (rest : Name) :
    scanExponent (letter :: rest) =
      if (letter = 101 ∨ letter = 69) ∧
          (rest.drop (exponentSign rest).length).takeWhile isDigit ≠ [] then
        (letter :: (exponentSign rest ++ (rest.drop (exponentSign rest).length).takeWhile isDigit),
          (rest.drop (exponentSign rest).length).dropWhile isDigit)
      else ([], letter :: rest) := rfl

theorem scanExponent_append (h : Delimited tail) (input : Name) :
    scanExponent (input ++ tail) = ((scanExponent input).1, (scanExponent input).2 ++ tail) := by
  cases input with
  | nil =>
      cases tail with
      | nil => rfl
      | cons point rest =>
          have hlower : point ≠ 101 := fun heq => h.head_ne (by decide) (congrArg some heq)
          have hupper : point ≠ 69 := fun heq => h.head_ne (by decide) (congrArg some heq)
          simp [scanExponent, hlower, hupper]
  | cons letter rest =>
      obtain ⟨hsign, hdrop⟩ := exponentSign_append h rest
      rw [List.cons_append, scanExponent_cons, scanExponent_cons, hsign, hdrop, takeWhile_append h,
        dropWhile_append h]
      split
      · rfl
      · rfl

/-- The sign of a number. -/
def numberSign (point : Nat) : Name := if point = 45 then [45] else []

theorem scanNumber_cons (point : Nat) (rest : Name) :
    scanNumber (point :: rest) =
      match scanInteger ((point :: rest).drop (numberSign point).length) with
      | none => none
      | some (integer, rest) =>
          some (.num ((numberSign point ++ integer ++ (scanFraction rest).1 ++
            (scanExponent (scanFraction rest).2).1).map Char.ofNat),
            (scanExponent (scanFraction rest).2).2) := by
  have hsign : (if (point :: rest).head? = some 45 then [45] else []) = numberSign point := by
    simp [numberSign]
  rewrite [scanNumber, hsign]
  rfl

theorem scanNumber_append (h : Delimited tail) {input rest : Name} {value : Json Nat}
    (hscan : scanNumber input = some (value, rest)) :
    scanNumber (input ++ tail) = some (value, rest ++ tail) := by
  cases input with
  | nil => cases hscan
  | cons point more =>
      have hdrop : (point :: (more ++ tail)).drop (numberSign point).length =
          (point :: more).drop (numberSign point).length ++ tail := by
        rw [← List.cons_append]
        apply List.drop_append_of_le_length
        unfold numberSign
        split
        · exact Nat.succ_le_succ (Nat.zero_le _)
        · exact Nat.zero_le _
      rw [scanNumber_cons] at hscan
      rw [List.cons_append, scanNumber_cons, hdrop]
      cases hinteger : scanInteger ((point :: more).drop (numberSign point).length) with
      | none =>
          rw [hinteger] at hscan
          cases hscan
      | some integer =>
          rw [hinteger] at hscan
          obtain ⟨rfl, rfl⟩ := Prod.mk.inj (Option.some.inj hscan)
          rw [scanInteger_append h hinteger]
          simp only [scanFraction_append h, scanExponent_append h]

end Delimiters

/-! ## Whole numbers of a document -/

/-- The first characters of constants and numbers. -/
def startsScalar (point : Nat) : Bool := isDigit point || [45, 110, 116, 102, 78, 73].contains point

theorem startsScalar_of_scanScalar {point : Nat} {rest : Name} {result : Json Nat × Name}
    (h : scanScalar (point :: rest) = some result) : startsScalar point = true := by
  by_contra hstart
  rw [Bool.not_eq_true, startsScalar, Bool.or_eq_false_iff] at hstart
  obtain ⟨hdigit, hletter⟩ := hstart
  simp only [List.contains_cons, List.contains_nil, Bool.or_false, Bool.or_eq_false_iff,
    beq_eq_false_iff_ne] at hletter
  obtain ⟨hminus, hn, ht, hf, hN, hI⟩ := hletter
  have hconstants : constants.find? (fun constant => constant.1.isPrefixOf (point :: rest)) = none := by
    simp [constants, text, List.isPrefixOf, hminus.symm, hn.symm, ht.symm, hf.symm, hN.symm, hI.symm]
  have hzero : point ≠ 48 := by
    rintro rfl
    cases hdigit
  simp [scanScalar, hconstants, scanNumber, hminus, scanInteger, hzero, hdigit] at h

theorem startsScalar_ne {point : Nat} (h : startsScalar point = true) :
    isBlank point = false ∧ point ≠ 34 ∧ point ≠ 91 ∧ point ≠ 93 ∧ point ≠ 123 ∧ point ≠ 0xFEFF := by
  simp only [startsScalar, isDigit, isBlank, Bool.or_eq_true, Bool.and_eq_true, decide_eq_true_eq,
    List.contains_cons, List.contains_nil, Bool.or_false, beq_iff_eq, Bool.or_eq_false_iff,
    beq_eq_false_iff_ne] at *
  omega

/-- The first character of a number. -/
theorem NumberText.head {spelling : Name} (h : NumberText spelling) :
    ∃ point rest, spelling = point :: rest ∧ startsScalar point = true := by
  cases spelling with
  | nil => cases h
  | cons point rest => exact ⟨point, rest, rfl, startsScalar_of_scanScalar h⟩

/-- The constants that are numbers are read in front of anything. -/
theorem scanScalar_constant {constant : Name × Json Nat} (hmem : constant ∈ constants) (tail : Name) :
    scanScalar (constant.1 ++ tail) = some (constant.2, tail) := by
  have hall : ∀ entry ∈ constants, ∀ tail : Name,
      scanScalar (entry.1 ++ tail) = some (entry.2, tail) := by
    simp only [constants, List.forall_mem_cons]
    exact ⟨fun _ => rfl, fun _ => rfl, fun _ => rfl, fun _ => rfl, fun _ => rfl, fun _ => rfl,
      List.forall_mem_nil _⟩
  exact hall constant hmem tail

theorem isDigit_of_scanInteger {point : Nat} {rest : Name} {result : Name × Name}
    (h : scanInteger (point :: rest) = some result) : isDigit point = true := by
  rw [scanInteger] at h
  split at h
  · rename_i hzero
    rw [hzero]
    rfl
  · split at h
    · assumption
    · cases h

/-- What starts like a number is no constant. -/
theorem find?_constants_of_scanNumber {input : Name} {result : Json Nat × Name}
    (h : scanNumber input = some result) :
    constants.find? (fun constant => constant.1.isPrefixOf input) = none := by
  have hletters : ∀ {point : Nat}, isDigit point = true → point ≠ 45 ∧ point ≠ 110 ∧ point ≠ 116 ∧
      point ≠ 102 ∧ point ≠ 78 ∧ point ≠ 73 := by
    intro point hdigit
    simp only [isDigit, Bool.and_eq_true, decide_eq_true_eq] at hdigit
    omega
  cases input with
  | nil => cases h
  | cons point rest =>
      rw [scanNumber_cons] at h
      split at h
      · cases h
      · rename_i integer more hinteger
        unfold numberSign at hinteger
        split at hinteger
        · rename_i hsign
          subst hsign
          cases rest with
          | nil => cases hinteger
          | cons digit rest =>
              obtain ⟨hminus, hn, ht, hf, hN, hI⟩ := hletters (isDigit_of_scanInteger hinteger)
              simp [constants, text, List.isPrefixOf, hI.symm]
        · obtain ⟨hminus, hn, ht, hf, hN, hI⟩ := hletters (isDigit_of_scanInteger hinteger)
          simp [constants, text, List.isPrefixOf, hminus.symm, hn.symm, ht.symm, hf.symm, hN.symm,
            hI.symm]

/-- A number is read up to what delimits it. -/
theorem NumberText.scan {spelling tail : Name} (h : NumberText spelling) (htail : Delimited tail) :
    scanScalar (spelling ++ tail) = some (.num (spelling.map Char.ofNat), tail) := by
  unfold NumberText scanScalar at h
  split at h
  · rename_i constant hfind
    obtain ⟨hvalue, hrest⟩ := Prod.mk.inj (Option.some.inj h)
    have hprefix : constant.1 <+: spelling := by
      have hfound := List.find?_some hfind
      exact List.isPrefixOf_iff_prefix.mp hfound
    have hwhole : constant.1 = spelling := by
      apply hprefix.eq_of_length_le
      rw [← List.drop_eq_nil_iff]
      exact hrest
    have hscan := scanScalar_constant (List.mem_of_find?_eq_some hfind) tail
    rw [hwhole, hvalue] at hscan
    exact hscan
  · rename_i hfind
    have hscan := scanNumber_append htail h
    unfold scanScalar
    rw [find?_constants_of_scanNumber hscan]
    exact hscan

/-! ## Counts -/

/-- What is printed for a natural number, `str(count)`. -/
def countText (count : Nat) : List Char := Nat.toDigits 10 count

theorem isDigit_countText {count point : Nat} (h : point ∈ (countText count).map Char.toNat) :
    isDigit point = true := by
  obtain ⟨c, hc, rfl⟩ := List.mem_map.mp h
  obtain ⟨value, hvalue, rfl⟩ := mem_toDigits (by omega) count c hc
  have hdigits : ∀ v < 10, isDigit (Nat.digitChar v).toNat = true := by decide
  exact hdigits value hvalue

/-- All of a numeral is its integer part, which does not start with a zero needlessly. -/
theorem scanInteger_countText (count : Nat) :
    scanInteger ((countText count).map Char.toNat) = some ((countText count).map Char.toNat, []) := by
  have hlow : 1 < 10 := by omega
  have hhigh : 10 ≤ 16 := by omega
  rcases Nat.eq_zero_or_pos count with rfl | hcount
  · rfl
  · have hall : ∀ point ∈ (countText count).map Char.toNat, isDigit point = true :=
      fun point => isDigit_countText
    have hhead := head?_toDigits_ne hlow hhigh hcount
    obtain ⟨value, rest, _, heq⟩ := toDigits_eq_cons hlow hhigh count
    rw [heq, List.head?_cons] at hhead
    rw [countText, heq, List.map_cons] at hall ⊢
    have hzero : (Nat.digitChar value).toNat ≠ 48 := by
      intro h
      apply hhead
      rw [← Char.ofNat_toNat (Nat.digitChar value), h]
    obtain ⟨hfirst, hrest⟩ := List.forall_mem_cons.mp hall
    rw [scanInteger, if_neg hzero, if_pos hfirst, List.takeWhile_eq_self_iff.mpr hrest,
      List.dropWhile_eq_nil_iff.mpr hrest]

/-- A count is read back. -/
theorem numberText_countText (count : Nat) : NumberText ((countText count).map Char.toNat) := by
  have hinteger := scanInteger_countText count
  have hnumber : scanNumber ((countText count).map Char.toNat) =
      some (.num (((countText count).map Char.toNat).map Char.ofNat), []) := by
    cases hpoints : (countText count).map Char.toNat with
    | nil =>
        rw [hpoints] at hinteger
        cases hinteger
    | cons point rest =>
        rw [hpoints] at hinteger
        have hdigit := isDigit_of_scanInteger hinteger
        have hsign : numberSign point = [] := by
          apply if_neg
          rintro rfl
          cases hdigit
        rw [scanNumber_cons, hsign, List.length_nil, List.drop_zero, hinteger]
        simp [scanFraction, scanExponent]
  unfold NumberText scanScalar
  rw [find?_constants_of_scanNumber hnumber]
  exact hnumber

end Icflow.Generate
