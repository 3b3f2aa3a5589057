import Icflow.Foundation.Json.Lexer

set_option autoImplicit false

/-!
# JSON: the decoder

A decoder that keeps the open containers on a stack and asks the scanner for one
token per iteration.  `parse` stops behind the first complete value, as a stream
extraction does; `parseStrict` also wants the text to end there.

The loop carries fuel, and `run_eq` discharges it once: the length of the text is
always enough, so everything after that equation reasons without fuel.
-/

namespace Icflow.Foundation.Json

variable {υ : Type}

/-! ## One token -/

/-- An open container with what it already holds. -/
inductive Frame (υ : Type) where
  | array (done : List (Json υ))
  | object (done : List (List υ × Json υ)) (name : List υ)

/-- What the decoder expects next; the frames are the containers around it. -/
inductive ParserState (υ : Type) where
  /-- a value -/
  | value (stack : List (Frame υ))
  /-- a value or the end of the array that has just been opened -/
  | firstElement (stack : List (Frame υ))
  /-- a comma or the end of the array -/
  | elements (done : List (Json υ)) (stack : List (Frame υ))
  /-- a name or the end of the object that has just been opened -/
  | firstName (stack : List (Frame υ))
  /-- a name -/
  | name (done : List (List υ × Json υ)) (stack : List (Frame υ))
  /-- the colon after a name -/
  | colon (done : List (List υ × Json υ)) (name : List υ) (stack : List (Frame υ))
  /-- a comma or the end of the object -/
  | members (done : List (List υ × Json υ)) (stack : List (Frame υ))

/-- What one token does. -/
inductive ParserStep (υ : Type) where
  | next (state : ParserState υ)
  | done (value : Json υ)
  | reject

/-- A value is complete: hand it to the innermost open container. -/
def complete : List (Frame υ) → Json υ → ParserStep υ
  | [], value => .done value
  | .array done :: stack, value => .next (.elements (done ++ [value]) stack)
  | .object done name :: stack, value => .next (.members (done ++ [(name, value)]) stack)

theorem complete_array (done : List (Json υ)) (stack : List (Frame υ)) (value : Json υ) :
    complete (.array done :: stack) value = .next (.elements (done ++ [value]) stack) := rfl

theorem complete_object (done : List (List υ × Json υ)) (name : List υ)
    (stack : List (Frame υ)) (value : Json υ) :
    complete (.object done name :: stack) value =
      .next (.members (done ++ [(name, value)]) stack) := rfl

/-- The token that starts a value. -/
def valueToken (stack : List (Frame υ)) : Token υ → ParserStep υ
  | .beginArray => .next (.firstElement stack)
  | .beginObject => .next (.firstName stack)
  | .literalNull => complete stack .null
  | .literalTrue => complete stack (.bool true)
  | .literalFalse => complete stack (.bool false)
  | .str value => complete stack (.str value)
  | .num lexeme => complete stack (.num lexeme)
  | _ => .reject

/-- One iteration of the decoder loop. -/
def parserStep : ParserState υ → Token υ → ParserStep υ
  | .value stack, token => valueToken stack token
  | .firstElement stack, .endArray => complete stack (.arr [])
  | .firstElement stack, token => valueToken (.array [] :: stack) token
  | .elements done stack, .valueSeparator => .next (.value (.array done :: stack))
  | .elements done stack, .endArray => complete stack (.arr done)
  | .firstName stack, .endObject => complete stack (.obj [])
  | .firstName stack, .str name => .next (.colon [] name stack)
  | .name done stack, .str name => .next (.colon done name stack)
  | .colon done name stack, .nameSeparator => .next (.value (.object done name :: stack))
  | .members done stack, .valueSeparator => .next (.name done stack)
  | .members done stack, .endObject => complete stack (.obj done)
  | _, _ => .reject

theorem parserStep_stop (state : ParserState υ) {token : Token υ}
    (h : token.isStop = true) : parserStep state token = .reject := by
  cases token <;> simp [Token.isStop] at h <;> cases state <;> rfl

/-- The first element of an array is read like any value. -/
theorem parserStep_firstElement (stack : List (Frame υ)) {token : Token υ}
    (h : token ≠ .endArray) :
    parserStep (.firstElement stack) token = valueToken (.array [] :: stack) token := by
  cases token with
  | endArray => exact absurd rfl h
  | _ => rfl

/-- A number is a whole value, so only a number document ends with one. -/
theorem parserStep_num_done {state : ParserState υ} {lexeme : List Char} {value : Json υ}
    (h : parserStep state (.num lexeme) = .done value) : value = .num lexeme := by
  cases state with
  | value stack =>
      cases stack with
      | nil => cases h; rfl
      | cons frame stack => cases frame <;> cases h
  | firstElement stack => cases h
  | elements done stack => cases h
  | firstName stack => cases h
  | name done stack => cases h
  | colon done name stack => cases h
  | members done stack => cases h

/-! ## The loop -/

/-- The decoder loop. -/
def runFuel (d : Dialect υ) : Nat → ParserState υ → List Char → Option (Json υ × List Char)
  | 0, _, _ => none
  | fuel + 1, state, text =>
      match parserStep state (scan d text).1 with
      | .reject => none
      | .done value => some (value, (scan d text).2)
      | .next state' => runFuel d fuel state' (scan d text).2

/-- The decoder loop with the fuel the text asks for. -/
def run (d : Dialect υ) (state : ParserState υ) (text : List Char) :
    Option (Json υ × List Char) :=
  runFuel d (text.length + 1) state text

/-- Go on with the outcome of one token. -/
def resume (d : Dialect υ) : ParserStep υ → List Char → Option (Json υ × List Char)
  | .reject, _ => none
  | .done value, rest => some (value, rest)
  | .next state, rest => run d state rest

theorem resume_next (d : Dialect υ) (state : ParserState υ) (rest : List Char) :
    resume d (.next state) rest = run d state rest := rfl

/-- The loop goes on only behind a token that consumed input. -/
theorem scan_length_lt_of_next {d : Dialect υ} {state state' : ParserState υ}
    {text : List Char} (h : parserStep state (scan d text).1 = .next state') :
    (scan d text).2.length < text.length := by
  have hscan : scan d text = ((scan d text).1, (scan d text).2) := rfl
  refine scan_length_lt hscan ?_
  by_contra hstop
  rw [Bool.not_eq_false] at hstop
  rw [parserStep_stop state hstop] at h
  cases h

/-- Any two amounts of fuel beyond the length of the text give the same result. -/
theorem runFuel_eq_runFuel (d : Dialect υ) :
    ∀ (left right : Nat) (state : ParserState υ) (text : List Char),
      text.length < left → text.length < right →
      runFuel d left state text = runFuel d right state text := by
  intro left
  induction left with
  | zero => intro right state text hleft _; omega
  | succ left ih =>
      intro right state text hleft hright
      cases right with
      | zero => omega
      | succ right =>
          rw [runFuel, runFuel]
          cases hstep : parserStep state (scan d text).1 with
          | reject => rfl
          | done value => rfl
          | next state' =>
              have hlt := scan_length_lt_of_next hstep
              exact ih right state' _ (by omega) (by omega)

/-- The loop without fuel: read a token, take a step, go on with the rest. -/
theorem run_eq (d : Dialect υ) (state : ParserState υ) (text : List Char) :
    run d state text = resume d (parserStep state (scan d text).1) (scan d text).2 := by
  rw [run, runFuel]
  cases hstep : parserStep state (scan d text).1 with
  | reject => rfl
  | done value => rfl
  | next state' =>
      have hlt := scan_length_lt_of_next hstep
      exact runFuel_eq_runFuel d _ _ state' _ hlt (Nat.lt_succ_self _)

/-- Leading white space does not matter. -/
theorem run_whitespace (d : Dialect υ) (state : ParserState υ) {blank : List Char}
    (hblank : ∀ c ∈ blank, isWhitespace c = true) (text : List Char) :
    run d state (blank ++ text) = run d state text := by
  rw [run_eq, run_eq, scan_whitespace d hblank]

/-- The step on a token whose first character is in front. -/
theorem run_cons (d : Dialect υ) (state : ParserState υ) {c : Char}
    (hc : isWhitespace c = false) (rest : List Char) :
    run d state (c :: rest) =
      resume d (parserStep state (tokenAt d c rest).1) (tokenAt d c rest).2 := by
  rw [run_eq, scan_cons d hc]

/-! ## Decoding a text -/

/-- Read one value and return the text behind it. -/
def parse (d : Dialect υ) (text : List Char) : Option (Json υ × List Char) :=
  run d (.value []) text

/-- Read one value and require the text to end behind it. -/
def parseStrict (d : Dialect υ) (text : List Char) : Option (Json υ) :=
  match parse d text with
  | some (value, rest) =>
      match (scan d rest).1 with
      | .endOfInput => some value
      | _ => none
  | none => none

/-- The value is no bare number, the one kind of value whose extent depends on
what follows. -/
def IsDelimited (value : Json υ) : Prop := ∀ lexeme, value ≠ .num lexeme

/-- Some container is open, or has just been opened. -/
def ParserState.Inside : ParserState υ → Prop
  | .value stack => stack ≠ []
  | _ => True

/-- What an outcome promises about the value in the end. -/
def ParserStep.Inside : ParserStep υ → Prop
  | .reject => True
  | .done value => IsDelimited value
  | .next state => state.Inside

theorem complete_inside {stack : List (Frame υ)} {value : Json υ}
    (hvalue : IsDelimited value) : (complete stack value).Inside := by
  cases stack with
  | nil => exact hvalue
  | cons frame stack => cases frame <;> exact trivial

theorem valueToken_inside {stack : List (Frame υ)} (hstack : stack ≠ [])
    (token : Token υ) : (valueToken stack token).Inside := by
  have hcomplete : ∀ value : Json υ, (complete stack value).Inside := by
    intro value
    cases stack with
    | nil => exact absurd rfl hstack
    | cons frame stack => cases frame <;> exact trivial
  cases token with
  | beginArray => exact trivial
  | beginObject => exact trivial
  | literalNull => exact hcomplete _
  | literalTrue => exact hcomplete _
  | literalFalse => exact hcomplete _
  | str value => exact hcomplete _
  | num lexeme => exact hcomplete _
  | _ => exact trivial

/-- Inside a container the decoder ends with an array or an object. -/
theorem parserStep_inside {state : ParserState υ} (h : state.Inside) (token : Token υ) :
    (parserStep state token).Inside := by
  have harr : ∀ xs : List (Json υ), IsDelimited (.arr xs) := fun xs lexeme => by simp
  have hobj : ∀ ms : List (List υ × Json υ), IsDelimited (.obj ms) := fun ms lexeme => by simp
  cases state with
  | value stack => exact valueToken_inside h token
  | firstElement stack =>
      by_cases hend : token = .endArray
      · rw [hend]
        exact complete_inside (harr [])
      · rw [parserStep_firstElement stack hend]
        exact valueToken_inside (List.cons_ne_nil _ _) token
  | elements done stack =>
      cases token with
      | valueSeparator => exact List.cons_ne_nil _ _
      | endArray => exact complete_inside (harr done)
      | _ => exact trivial
  | firstName stack =>
      cases token with
      | endObject => exact complete_inside (hobj [])
      | _ => exact trivial
  | name done stack => cases token <;> exact trivial
  | colon done name stack =>
      cases token with
      | nameSeparator => exact List.cons_ne_nil _ _
      | _ => exact trivial
  | members done stack =>
      cases token with
      | endObject => exact complete_inside (hobj done)
      | _ => exact trivial

theorem run_inside (d : Dialect υ) :
    ∀ (size : Nat) (state : ParserState υ) (text rest : List Char) (value : Json υ),
      text.length < size → state.Inside → run d state text = some (value, rest) →
      IsDelimited value := by
  intro size
  induction size with
  | zero => intro state text rest value hsize; omega
  | succ size ih =>
      intro state text rest value hsize hinside h
      rw [run_eq] at h
      have hstep := parserStep_inside hinside (scan d text).1
      cases heq : parserStep state (scan d text).1 with
      | reject => rw [heq] at h; cases h
      | done result =>
          rw [heq] at h hstep
          cases h
          exact hstep
      | next state' =>
          rw [heq] at h hstep
          have hlt := scan_length_lt_of_next heq
          exact ih state' _ rest value (by omega) hstep h

/-- A decoded prefix decodes alike in front of any continuation.  The induction
is on the length of the text; a number in the middle of a container is followed
by a separator, so it never touches the end. -/
theorem run_append (d : Dialect υ) (more : List Char) :
    ∀ (size : Nat) (state : ParserState υ) (text rest : List Char) (value : Json υ),
      text.length < size → IsDelimited value →
      run d state text = some (value, rest) →
      run d state (text ++ more) = some (value, rest ++ more) := by
  intro size
  induction size with
  | zero => intro state text rest value hsize; omega
  | succ size ih =>
      intro state text rest value hsize hvalue h
      rw [run_eq] at h ⊢
      rcases hscan : scan d text with ⟨token, tail⟩
      rw [hscan] at h
      have hstop : token.isStop = false := by
        by_contra hstop
        rw [Bool.not_eq_false] at hstop
        rw [parserStep_stop state hstop] at h
        cases h
      cases hstep : parserStep state token with
      | reject => rw [hstep] at h; cases h
      | done result =>
          rw [hstep] at h
          cases h
          have hnum : token.isNum = true → tail ≠ [] := by
            intro hnum
            cases token with
            | num lexeme => exact absurd (parserStep_num_done hstep) (hvalue lexeme)
            | _ => simp [Token.isNum] at hnum
          rw [scan_append hscan hstop more hnum]
          simp only [hstep]
          rfl
      | next state' =>
          rw [hstep] at h
          have hnum : token.isNum = true → tail ≠ [] := by
            rintro - rfl
            have hend : run d state' [] = none := by
              have hscan' : scan d ([] : List Char) = (.endOfInput, []) := rfl
              rw [run_eq, hscan', parserStep_stop state' rfl]
              rfl
            simp only [resume, hend] at h
            cases h
          rw [scan_append hscan hstop more hnum]
          simp only [hstep, resume] at h ⊢
          have hlt := scan_length_lt hscan hstop
          exact ih state' tail rest value (by omega) hvalue h

theorem parse_append {d : Dialect υ} {text rest : List Char} {value : Json υ}
    (hvalue : IsDelimited value) (h : parse d text = some (value, rest))
    (more : List Char) : parse d (text ++ more) = some (value, rest ++ more) :=
  run_append d more (text.length + 1) _ text rest value (Nat.lt_succ_self _) hvalue h

/-- A text that opens with a brace decodes to no bare number. -/
theorem parse_brace_isDelimited {d : Dialect υ} {text rest : List Char} {value : Json υ}
    (h : parse d ('{' :: text) = some (value, rest)) : IsDelimited value := by
  unfold parse at h
  rw [run_cons d _ (by decide)] at h
  exact run_inside d _ (.firstName []) text rest value (Nat.lt_succ_self _) trivial h

/-- A text that is cut off inside its first value does not decode: the decoder
would have stopped at the same place in the whole text. -/
theorem parse_truncated {d : Dialect υ} {text more rest : List Char} {value : Json υ}
    (hwhole : parse d ('{' :: text ++ more) = some (value, rest))
    (hcut : rest.length < more.length) : parse d ('{' :: text) = none := by
  cases h : parse d ('{' :: text) with
  | none => rfl
  | some result =>
      obtain ⟨value', rest'⟩ := result
      have hwhole' := parse_append (parse_brace_isDelimited h) h more
      rw [hwhole] at hwhole'
      have hrest : rest = rest' ++ more := congrArg Prod.snd (Option.some.inj hwhole')
      rw [hrest, List.length_append] at hcut
      omega

end Icflow.Foundation.Json
