import Icflow.Foundation.Json.Syntax
import Icflow.Foundation.Lines
import Icflow.Foundation.Numeral
import Icflow.Foundation.Occurrences
import Mathlib.Data.List.TakeWhile

set_option autoImplicit false

/-!
# What the commands make of a response

`fetch_repository` looks at a response of the package API through four `jq` commands only.
`document` is what they print and how they exit when the response is a JSON document; a
reply in general is any combination of outputs, so that nothing is assumed of a response
that is none.
-/

namespace Icflow.Listing

open Icflow.Foundation

abbrev Text := List Char

/-- A JSON value as `jq` reads it. -/
abbrev Document := Json Char

/-- What a command prints, and whether it succeeds. -/
structure Output where
  text : Text
  succeeds : Bool

/-- A reply of the package API. -/
inductive Reply where
  /-- `curl` fails -/
  | failed
  /-- `jq -e '.results | type == "array"'` fails -/
  | unexpected
  /-- the outputs of the other three `jq` commands, in the order in which they are run -/
  | received (records count total : Output)

/-! ## Filters -/

/-- `.name`; `none` is an error. -/
def field (name : Text) : Document → Option Document
  | .obj members =>
      some (((members.reverse.find? fun member => member.1 == name).map Prod.snd).getD .null)
  | .null => some .null
  | _ => none

/-- Neither `null` nor `false`. -/
def truthy : Document → Bool
  | .null => false
  | .bool value => value
  | _ => true

/-- `left // right`, which passes over an error on the left. -/
def alternative (left right : Option Document) : Option Document :=
  match left with
  | some value => if truthy value then some value else right
  | none => right

/-- `left + right` where one of them is a string. -/
def add : Document → Document → Option Document
  | .null, right => some right
  | left, .null => some left
  | .str left, .str right => some (.str (left ++ right))
  | _, _ => none

/-- `.pkgname + "," + (.pkgbase // .pkgname)`. -/
def recordLine (element : Document) : Option Document :=
  match field "pkgname".toList element with
  | none => none
  | some name =>
      match add name (.str [',']),
          alternative (field "pkgbase".toList element) (some name) with
      | some front, some base => add front base
      | _, _ => none

/-- What `jq -r` prints for a value; `render` is what it prints for one that is no string. -/
def printed (render : Document → Text) : Document → Text
  | .str text => text
  | value => render value

/-- The results are printed one after the other, up to the first error. -/
def printLines (render : Document → Text) : List (Option Document) → Output
  | [] => { text := [], succeeds := true }
  | none :: _ => { text := [], succeeds := false }
  | some value :: rest =>
      let later := printLines render rest
      { text := printed render value ++ '\n' :: later.text, succeeds := later.succeeds }

/-- `jq -r '.num_pages // empty'`. -/
def totalOutput (render : Document → Text) (response : Document) : Output :=
  match alternative (field "num_pages".toList response) none with
  | some value => printLines render [some value]
  | none => printLines render []

/-- The reply that is a JSON document. -/
def document (render : Document → Text) (response : Document) : Reply :=
  match field "results".toList response with
  | some (.arr results) =>
      .received (printLines render (results.map recordLine))
        { text := Nat.toDigits 10 results.length ++ ['\n'], succeeds := true }
        (totalOutput render response)
  | _ => .unexpected

/-! ## The shell -/

/-- `$(…)` takes the null bytes out and the newlines off the end. -/
def substituted (output : Text) : Text :=
  ((output.filter (· != '\x00')).reverse.dropWhile (· == '\n')).reverse

/-- The value of a text of digits in `((…))`: an empty one is zero, and one that starts with
a zero is octal.  With anything else in it the expression is an error. -/
def shellNumber (text : Text) : Option Nat :=
  match readDigits (if text.head? = some '0' then 8 else 10) 0 0 text with
  | (value, _, []) => some value
  | _ => none

/-- `[[ $text =~ ^[0-9]+$ ]]`. -/
def isNumeral (text : Text) : Bool := text ≠ [] && text.all fun c => '0' ≤ c && c ≤ '9'

section Lemmas

variable {render : Document → Text}

theorem printLines_some (values : List Document) :
    printLines render (values.map some) =
      { text := unlines (values.map (printed render)), succeeds := true } := by
  induction values with
  | nil => rfl
  | cons value values ih =>
      rw [List.map_cons, printLines, ih]
      simp [unlines]

theorem totalOutput_of_num {response : Document} {lexeme : List Char}
    (h : field "num_pages".toList response = some (.num lexeme)) :
    totalOutput render response =
      { text := render (.num lexeme) ++ ['\n'], succeeds := true } := by
  unfold totalOutput
  rw [h]
  rfl

theorem totalOutput_of_null {response : Document}
    (h : field "num_pages".toList response = some .null) :
    totalOutput render response = { text := [], succeeds := true } := by
  unfold totalOutput
  rw [h]
  rfl

theorem digit_of_mem_toDigits {n : Nat} {c : Char} (hc : c ∈ Nat.toDigits 10 n) :
    c ≠ '\x00' ∧ c ≠ '\n' ∧ ('0' ≤ c && c ≤ '9') = true := by
  obtain ⟨value, hvalue, rfl⟩ := mem_toDigits (by omega) n c hc
  have hdigits : ∀ v < 10, Nat.digitChar v ≠ '\x00' ∧ Nat.digitChar v ≠ '\n' ∧
      ('0' ≤ Nat.digitChar v && Nat.digitChar v ≤ '9') = true := by decide
  exact hdigits value hvalue

theorem substituted_toDigits (n : Nat) :
    substituted (Nat.toDigits 10 n ++ ['\n']) = Nat.toDigits 10 n := by
  have hkept : (Nat.toDigits 10 n ++ ['\n']).filter (· != '\x00') = Nat.toDigits 10 n ++ ['\n'] := by
    apply List.filter_eq_self.mpr
    apply bne_of_notMem
    rw [List.mem_append, List.mem_singleton]
    rintro (hdigit | hnewline)
    · exact (digit_of_mem_toDigits hdigit).1 rfl
    · cases hnewline
  have hend : (Nat.toDigits 10 n).reverse.dropWhile (· == '\n') = (Nat.toDigits 10 n).reverse := by
    apply List.dropWhile_eq_self_iff.mpr
    intro hlength
    have hmem := List.mem_reverse.mp (List.getElem_mem hlength)
    rw [beq_iff_eq]
    exact (digit_of_mem_toDigits hmem).2.1
  rw [substituted, hkept, List.reverse_append, List.reverse_singleton, List.singleton_append,
    List.dropWhile_cons_of_pos (by decide), hend, List.reverse_reverse]

theorem substituted_nil : substituted [] = [] := rfl

theorem shellNumber_toDigits (n : Nat) : shellNumber (Nat.toDigits 10 n) = some n := by
  have hlow : 1 < 10 := by omega
  have hhigh : 10 ≤ 16 := by omega
  unfold shellNumber
  rcases Nat.eq_zero_or_pos n with rfl | hn
  · decide
  · have hread := readDigits_toDigits hlow hhigh n (startsWithNoDigit_nil 10)
    rw [List.append_nil] at hread
    rw [if_neg (head?_toDigits_ne hlow hhigh hn), hread]

theorem isNumeral_toDigits (n : Nat) : isNumeral (Nat.toDigits 10 n) = true := by
  have hlow : 1 < 10 := by omega
  have hhigh : 10 ≤ 16 := by omega
  obtain ⟨value, rest, _, heq⟩ := toDigits_eq_cons hlow hhigh n
  unfold isNumeral
  rw [Bool.and_eq_true, decide_eq_true_eq, List.all_eq_true]
  refine ⟨?_, ?_⟩
  · rw [heq]
    exact List.cons_ne_nil _ _
  · intro c hc
    exact (digit_of_mem_toDigits hc).2.2

end Lemmas

end Icflow.Listing
