import Icflow.Foundation.Json.Printer

set_option autoImplicit false

/-!
# JSON: the limits of a decoder

A decoder may give up on a well-formed text: it goes only so deep into containers, and it
converts only some numbers.  `firstExcess` finds the first place of a text where it does.
On a text that it can read otherwise, these limits are limits of the value
(`firstExcess_cases`).
-/

namespace Icflow.Foundation.Json

variable {υ : Type}

mutual

/-- The numbers of a value, as they are spelled. -/
def numbers : Json υ → List (List Char)
  | .num lexeme => [lexeme]
  | .arr elements => numbersElements elements
  | .obj members => numbersMembers members
  | .null | .bool _ | .str _ => []

/-- The numbers of the elements of an array. -/
def numbersElements : List (Json υ) → List (List Char)
  | [] => []
  | head :: rest => numbers head ++ numbersElements rest

/-- The numbers of the members of an object. -/
def numbersMembers : List (List υ × Json υ) → List (List Char)
  | [] => []
  | (_, value) :: rest => numbers value ++ numbersMembers rest

end

mutual

/-- A plain value holds no number. -/
theorem numbers_of_plain : ∀ {value : Json Char}, Plain value → value.numbers = []
  | .null, _ | .bool _, _ | .str _, _ => rfl
  | .num _, h => h.elim
  | .arr _, h => numbersElements_of_plain h
  | .obj _, h => numbersMembers_of_plain h

theorem numbersElements_of_plain : ∀ {elements : List (Json Char)}, PlainElements elements →
    numbersElements elements = []
  | [], _ => rfl
  | _ :: _, h => by
      rw [numbersElements, numbers_of_plain h.1, numbersElements_of_plain h.2]
      rfl

theorem numbersMembers_of_plain : ∀ {members : List (List Char × Json Char)}, PlainMembers members →
    numbersMembers members = []
  | [], _ => rfl
  | (_, _) :: _, h => by
      rw [numbersMembers, numbers_of_plain h.2.1, numbersMembers_of_plain h.2.2]
      rfl

end

/-- How far a decoder goes. -/
structure Limits where
  /-- so many containers inside one another -/
  nesting : Nat
  /-- the numbers that it converts -/
  converts : List Char → Bool

/-- Where a decoder gives up. -/
inductive Excess where
  | nesting
  | number
  deriving DecidableEq, Repr

/-- The containers that are open. -/
def ParserState.depth : ParserState υ → Nat
  | .value stack => stack.length
  | .firstElement stack | .elements _ stack | .firstName stack | .name _ stack
  | .colon _ _ stack | .members _ stack => stack.length + 1

/-- A token that is not rejected goes too far. -/
def Limits.excess (limits : Limits) : Token υ → ParserStep υ → Option Excess
  | _, .reject => none
  | .num lexeme, _ => if limits.converts lexeme then none else some .number
  | .beginArray, .next state | .beginObject, .next state =>
      if state.depth ≤ limits.nesting then none else some .nesting
  | _, _ => none

/-- The decoder loop up to the first excess. -/
def excessFuel (d : Dialect υ) (limits : Limits) : Nat → ParserState υ → List Char → Option Excess
  | 0, _, _ => none
  | fuel + 1, state, text =>
      match limits.excess (scan d text).1 (parserStep state (scan d text).1) with
      | some excess => some excess
      | none =>
          match parserStep state (scan d text).1 with
          | .next state' => excessFuel d limits fuel state' (scan d text).2
          | _ => none

/-- The first excess of a text, before anything that is rejected. -/
def firstExcess (d : Dialect υ) (limits : Limits) (text : List Char) : Option Excess :=
  excessFuel d limits (text.length + 1) (.value []) text

/-! ## What the open containers hold -/

theorem depthElements_append (elements : List (Json υ)) (value : Json υ) :
    depthElements (elements ++ [value]) = max (depthElements elements) (depth value) := by
  induction elements with
  | nil => simp [depthElements]
  | cons head rest ih => rw [List.cons_append, depthElements, depthElements, ih, max_assoc]

theorem depthMembers_append (members : List (List υ × Json υ)) (name : List υ) (value : Json υ) :
    depthMembers (members ++ [(name, value)]) = max (depthMembers members) (depth value) := by
  induction members with
  | nil => simp [depthMembers]
  | cons head rest ih => rw [List.cons_append, depthMembers, depthMembers, ih, max_assoc]

theorem numbersElements_append (elements : List (Json υ)) (value : Json υ) :
    numbersElements (elements ++ [value]) = numbersElements elements ++ numbers value := by
  induction elements with
  | nil => simp [numbersElements]
  | cons head rest ih =>
      rw [List.cons_append, numbersElements, numbersElements, ih, List.append_assoc]

theorem numbersMembers_append (members : List (List υ × Json υ)) (name : List υ) (value : Json υ) :
    numbersMembers (members ++ [(name, value)]) = numbersMembers members ++ numbers value := by
  induction members with
  | nil => simp [numbersMembers]
  | cons head rest ih =>
      rw [List.cons_append, numbersMembers, numbersMembers, ih, List.append_assoc]

/-- The depth of the whole when the innermost open container gets something of this depth. -/
def stackHeight : List (Frame υ) → Nat → Nat
  | [], inner => inner
  | .array done :: stack, inner => stackHeight stack (max (depthElements done) inner + 1)
  | .object done _ :: stack, inner => stackHeight stack (max (depthMembers done) inner + 1)

/-- The numbers that the open containers hold. -/
def stackNumbers : List (Frame υ) → List (List Char)
  | [] => []
  | .array done :: stack => stackNumbers stack ++ numbersElements done
  | .object done _ :: stack => stackNumbers stack ++ numbersMembers done

/-- The depth of what has been read so far. -/
def ParserState.height : ParserState υ → Nat
  | .value stack => stackHeight stack 0
  | .firstElement stack | .firstName stack => stackHeight stack 1
  | .elements done stack => stackHeight stack (depthElements done + 1)
  | .name done stack | .colon done _ stack | .members done stack =>
      stackHeight stack (depthMembers done + 1)

/-- The numbers that have been read so far. -/
def ParserState.numbers : ParserState υ → List (List Char)
  | .value stack | .firstElement stack | .firstName stack => stackNumbers stack
  | .elements done stack => stackNumbers stack ++ numbersElements done
  | .name done stack | .colon done _ stack | .members done stack =>
      stackNumbers stack ++ numbersMembers done

theorem ParserStep.done_ne_reject (value : Json υ) : ParserStep.done value ≠ .reject := by
  intro h
  cases h

theorem ParserStep.next_ne_reject (state : ParserState υ) : ParserStep.next state ≠ .reject := by
  intro h
  cases h

def ParserStep.height : ParserStep υ → Nat
  | .reject => 0
  | .done value => value.depth
  | .next state => state.height

def ParserStep.numbers : ParserStep υ → List (List Char)
  | .reject => []
  | .done value => value.numbers
  | .next state => state.numbers

/-- Something of this depth in the innermost open container lies below all of them. -/
theorem stackHeight_eq (stack : List (Frame υ)) (inner : Nat) :
    stackHeight stack inner = max (stackHeight stack 0) (stack.length + inner) := by
  induction stack generalizing inner with
  | nil => simp [stackHeight]
  | cons frame stack ih =>
      cases frame with
      | array done =>
          rw [stackHeight, stackHeight, ih, ih (max (depthElements done) 0 + 1), List.length_cons]
          omega
      | object done name =>
          rw [stackHeight, stackHeight, ih, ih (max (depthMembers done) 0 + 1), List.length_cons]
          omega

theorem complete_height (stack : List (Frame υ)) (value : Json υ) :
    (complete stack value).height = stackHeight stack value.depth := by
  cases stack with
  | nil => rfl
  | cons frame stack =>
      cases frame with
      | array done =>
          rw [complete_array, ParserStep.height, ParserState.height, depthElements_append]
          rfl
      | object done name =>
          rw [complete_object, ParserStep.height, ParserState.height, depthMembers_append]
          rfl

theorem complete_numbers (stack : List (Frame υ)) (value : Json υ) :
    (complete stack value).numbers = stackNumbers stack ++ value.numbers := by
  cases stack with
  | nil => rfl
  | cons frame stack =>
      cases frame with
      | array done =>
          rw [complete_array, ParserStep.numbers, ParserState.numbers, numbersElements_append,
            ← List.append_assoc]
          rfl
      | object done name =>
          rw [complete_object, ParserStep.numbers, ParserState.numbers, numbersMembers_append,
            ← List.append_assoc]
          rfl

/-- A token opens a container. -/
def Token.opens : Token υ → Bool
  | .beginArray | .beginObject => true
  | _ => false

/-- The number of a token. -/
def Token.numbers : Token υ → List (List Char)
  | .num lexeme => [lexeme]
  | _ => []

/-- What a token adds to what has been read: its number, and the depth of what it opens. -/
structure Adds (state : ParserState υ) (token : Token υ) (step : ParserStep υ) : Prop where
  numbers : step.numbers = state.numbers ++ token.numbers
  same : token.opens = false → step.height = state.height
  opened : token.opens = true → ∃ next, step = .next next ∧ next.height = max state.height next.depth

/-- A scalar completes a value of no depth. -/
theorem adds_scalar {stack : List (Frame υ)} {token : Token υ} {value : Json υ}
    (hdepth : value.depth = 0) (hnumbers : value.numbers = token.numbers)
    (hopens : token.opens = false) : Adds (.value stack) token (complete stack value) where
  numbers := by
    rw [complete_numbers, hnumbers]
    rfl
  same := by
    intro _
    rw [complete_height, hdepth]
    rfl
  opened := by
    intro h
    rw [hopens] at h
    cases h

theorem valueToken_adds {stack : List (Frame υ)} {token : Token υ}
    (h : valueToken stack token ≠ .reject) : Adds (.value stack) token (valueToken stack token) := by
  cases token with
  | beginArray =>
      refine ⟨(List.append_nil _).symm, fun h => absurd h Bool.true_eq_false.mp, ?_⟩
      exact fun _ => ⟨_, rfl, stackHeight_eq stack 1⟩
  | beginObject =>
      refine ⟨(List.append_nil _).symm, fun h => absurd h Bool.true_eq_false.mp, ?_⟩
      exact fun _ => ⟨_, rfl, stackHeight_eq stack 1⟩
  | literalNull | literalTrue | literalFalse | str _ | num _ => exact adds_scalar rfl rfl rfl
  | _ => exact absurd rfl h

/-- The end of a container completes it. -/
theorem adds_end {state : ParserState υ} {stack : List (Frame υ)} {token : Token υ}
    {value : Json υ} (hheight : state.height = stackHeight stack value.depth)
    (hnumbers : state.numbers = stackNumbers stack ++ value.numbers) (htoken : token.numbers = [])
    (hopens : token.opens = false) : Adds state token (complete stack value) where
  numbers := by rw [complete_numbers, hnumbers, htoken, List.append_nil]
  same := by
    intro _
    rw [complete_height, hheight]
  opened := by
    intro h
    rw [hopens] at h
    cases h

/-- A separator or a name adds nothing. -/
theorem adds_nothing {state next : ParserState υ} {token : Token υ}
    (hheight : next.height = state.height) (hnumbers : next.numbers = state.numbers)
    (htoken : token.numbers = []) (hopens : token.opens = false) :
    Adds state token (.next next) where
  numbers := by
    rw [htoken, List.append_nil]
    exact hnumbers
  same := fun _ => hheight
  opened := by
    intro h
    rw [hopens] at h
    cases h

theorem parserStep_adds {state : ParserState υ} {token : Token υ}
    (h : parserStep state token ≠ .reject) : Adds state token (parserStep state token) := by
  cases state with
  | value stack => exact valueToken_adds h
  | firstElement stack =>
      by_cases hend : token = .endArray
      · subst hend
        exact adds_end rfl (List.append_nil _).symm rfl rfl
      · rw [parserStep_firstElement stack hend] at h ⊢
        have hadds := valueToken_adds h
        have hnumbers : stackNumbers (.array [] :: stack) = stackNumbers stack := List.append_nil _
        refine ⟨?_, hadds.same, hadds.opened⟩
        rw [hadds.numbers, ParserState.numbers, hnumbers]
        rfl
  | elements done stack =>
      cases token with
      | valueSeparator => exact adds_nothing (by simp [ParserState.height, stackHeight]) rfl rfl rfl
      | endArray => exact adds_end rfl rfl rfl rfl
      | _ => exact absurd rfl h
  | firstName stack =>
      cases token with
      | endObject => exact adds_end rfl (List.append_nil _).symm rfl rfl
      | str name => exact adds_nothing rfl (List.append_nil _) rfl rfl
      | _ => exact absurd rfl h
  | name done stack =>
      cases token with
      | str name => exact adds_nothing rfl rfl rfl rfl
      | _ => exact absurd rfl h
  | colon done name stack =>
      cases token with
      | nameSeparator => exact adds_nothing (by simp [ParserState.height, stackHeight]) rfl rfl rfl
      | _ => exact absurd rfl h
  | members done stack =>
      cases token with
      | valueSeparator => exact adds_nothing rfl rfl rfl rfl
      | endObject => exact adds_end rfl rfl rfl rfl
      | _ => exact absurd rfl h

theorem Adds.height_le {state : ParserState υ} {token : Token υ} {step : ParserStep υ}
    (h : Adds state token step) : state.height ≤ step.height := by
  cases hopens : token.opens with
  | false => exact (h.same hopens).ge
  | true =>
      obtain ⟨next, rfl, hheight⟩ := h.opened hopens
      exact le_of_le_of_eq (le_max_left _ _) hheight.symm

theorem Adds.subset {state : ParserState υ} {token : Token υ} {step : ParserStep υ}
    (h : Adds state token step) : state.numbers ⊆ step.numbers := by
  rw [h.numbers]
  exact List.subset_append_left _ _

/-- What is read stays within the limits, or the first excess shows in it. -/
def Limits.Shows (limits : Limits) (height : Nat) (numbers : List (List Char)) :
    Option Excess → Prop
  | none => height ≤ limits.nesting ∧ ∀ lexeme ∈ numbers, limits.converts lexeme = true
  | some .nesting => limits.nesting < height
  | some .number => ∃ lexeme ∈ numbers, limits.converts lexeme = false

theorem Limits.Shows.mono {limits : Limits} {height height' : Nat}
    {numbers numbers' : List (List Char)} {excess : Excess}
    (h : limits.Shows height numbers (some excess)) (hheight : height ≤ height')
    (hnumbers : numbers ⊆ numbers') : limits.Shows height' numbers' (some excess) := by
  cases excess with
  | nesting => exact lt_of_lt_of_le h hheight
  | number =>
      obtain ⟨lexeme, hmem, hconverts⟩ := h
      exact ⟨lexeme, hnumbers hmem, hconverts⟩

theorem Adds.shows {limits : Limits} {state : ParserState υ} {token : Token υ}
    {step : ParserStep υ} (h : Adds state token step) (hstep : step ≠ .reject)
    (hwithin : limits.Shows state.height state.numbers none) :
    limits.Shows step.height step.numbers (limits.excess token step) := by
  obtain ⟨hheight, hnumbers⟩ := hwithin
  have hnothing (hopens : token.opens = false) (htoken : token.numbers = []) :
      limits.Shows step.height step.numbers none := by
    refine ⟨(h.same hopens).trans_le hheight, ?_⟩
    rw [h.numbers, htoken, List.append_nil]
    exact hnumbers
  have hopened {next : ParserState υ} (hnext : next.height = max state.height next.depth)
      (htoken : token.numbers = []) (heq : step = .next next) :
      limits.Shows step.height step.numbers
        (if next.depth ≤ limits.nesting then none else some .nesting) := by
    subst heq
    split
    · rename_i hdepth
      refine ⟨hnext.trans_le (max_le hheight hdepth), ?_⟩
      rw [h.numbers, htoken, List.append_nil]
      exact hnumbers
    · rename_i hdepth
      have hle : next.depth ≤ next.height := le_of_le_of_eq (le_max_right _ _) hnext.symm
      exact lt_of_lt_of_le (not_le.mp hdepth) hle
  cases token with
  | beginArray | beginObject =>
      obtain ⟨next, rfl, hnext⟩ := h.opened rfl
      exact hopened hnext rfl rfl
  | num lexeme =>
      have hexcess : limits.excess (.num lexeme) step =
          if limits.converts lexeme then none else some .number := by
        cases step with
        | reject => exact absurd rfl hstep
        | done value => rfl
        | next state' => rfl
      rw [hexcess]
      split
      · rename_i hconverts
        refine ⟨(h.same rfl).trans_le hheight, ?_⟩
        rw [h.numbers]
        intro other hother
        rcases List.mem_append.mp hother with hold | hnew
        · exact hnumbers other hold
        · rw [List.mem_singleton.mp hnew]
          exact hconverts
      · rename_i hconverts
        refine ⟨lexeme, ?_, Bool.not_eq_true _ ▸ hconverts⟩
        rw [h.numbers]
        exact List.mem_append_right _ List.mem_cons_self
  | _ =>
      cases step with
      | reject => exact absurd rfl hstep
      | done value => exact hnothing rfl rfl
      | next state' => exact hnothing rfl rfl

/-! ## The whole text -/

variable {d : Dialect υ} {limits : Limits}

/-- What has been read is in the value. -/
theorem runFuel_bounds {fuel : Nat} {state : ParserState υ} {text rest : List Char} {value : Json υ}
    (h : runFuel d fuel state text = some (value, rest)) :
    state.height ≤ value.depth ∧ state.numbers ⊆ value.numbers := by
  induction fuel generalizing state text with
  | zero => cases h
  | succ fuel ih =>
      rw [runFuel] at h
      have hadds : parserStep state (scan d text).1 ≠ .reject →
          Adds state (scan d text).1 (parserStep state (scan d text).1) := parserStep_adds
      cases hstep : parserStep state (scan d text).1 with
      | reject =>
          rw [hstep] at h
          cases h
      | done result =>
          rw [hstep] at h hadds
          cases h
          have hread := hadds (ParserStep.done_ne_reject _)
          exact ⟨hread.height_le, hread.subset⟩
      | next state' =>
          rw [hstep] at h hadds
          have hread := hadds (ParserStep.next_ne_reject _)
          obtain ⟨hheight, hnumbers⟩ := ih h
          exact ⟨hread.height_le.trans hheight, List.Subset.trans hread.subset hnumbers⟩

theorem excessFuel_shows {fuel : Nat} {state : ParserState υ} {text rest : List Char}
    {value : Json υ} (h : runFuel d fuel state text = some (value, rest))
    (hwithin : limits.Shows state.height state.numbers none) :
    limits.Shows value.depth value.numbers (excessFuel d limits fuel state text) := by
  induction fuel generalizing state text with
  | zero => cases h
  | succ fuel ih =>
      rw [runFuel] at h
      rw [excessFuel]
      have hshows : parserStep state (scan d text).1 ≠ .reject →
          limits.Shows (parserStep state (scan d text).1).height
            (parserStep state (scan d text).1).numbers
            (limits.excess (scan d text).1 (parserStep state (scan d text).1)) :=
        fun hstep => (parserStep_adds hstep).shows hstep hwithin
      cases hstep : parserStep state (scan d text).1 with
      | reject =>
          rw [hstep] at h
          cases h
      | done result =>
          rw [hstep] at h hshows
          cases h
          have hread := hshows (ParserStep.done_ne_reject _)
          cases hexcess : limits.excess (scan d text).1 (.done value) with
          | none =>
              rw [hexcess] at hread
              exact hread
          | some excess =>
              rw [hexcess] at hread
              exact hread
      | next state' =>
          rw [hstep] at h hshows
          have hread := hshows (ParserStep.next_ne_reject _)
          cases hexcess : limits.excess (scan d text).1 (.next state') with
          | none =>
              rw [hexcess] at hread
              exact ih h hread
          | some excess =>
              rw [hexcess] at hread
              obtain ⟨hheight, hnumbers⟩ := runFuel_bounds h
              exact hread.mono hheight hnumbers

theorem parse_of_parseStrict {text : List Char} {value : Json υ}
    (h : parseStrict d text = some value) : ∃ rest, parse d text = some (value, rest) := by
  unfold parseStrict at h
  split at h
  · rename_i found rest hparse
    split at h
    · cases h
      exact ⟨rest, hparse⟩
    · cases h
  · cases h

/-- On a text that is read otherwise the limits are limits of the value. -/
theorem firstExcess_shows {text rest : List Char} {value : Json υ}
    (h : parse d text = some (value, rest)) :
    limits.Shows value.depth value.numbers (firstExcess d limits text) := by
  refine excessFuel_shows h ⟨Nat.zero_le _, ?_⟩
  intro lexeme hlexeme
  cases hlexeme

end Icflow.Foundation.Json
