import Icflow.Foundation.Numeral
import Icflow.Foundation.Json.Syntax

set_option autoImplicit false

/-!
# JSON: the scanner

One token at a time, from the text that is left.  The scanner is a pair of small
automata (strings and numbers) around a character switch.  What real decoders
disagree on is collected in a `Dialect`: which raw characters a string may hold,
what an escape contributes, whether a lone surrogate is an error, and whether the
non-finite literals are read.

Two facts carry everything built on top.  A token consumes input
(`scan_length_lt`), so a decoder loop ends; and a token does not change when more
text follows it (`scan_append`), except for a number that touches the end.
-/

namespace Icflow.Foundation.Json

variable {υ : Type}

/-- What the decoders disagree on. -/
structure Dialect (υ : Type) where
  /-- the unit an unescaped character contributes -/
  raw : Char → υ
  /-- the ranges the characters after an unescaped one must lie in; `none` rejects it -/
  continuation : Char → Option (List (Nat × Nat))
  /-- the units an escaped code point contributes -/
  emit : Nat → List υ
  /-- the units of a surrogate without its partner; `none` rejects it -/
  loneSurrogate : Nat → Option (List υ)
  /-- whether `NaN`, `Infinity` and `-Infinity` are read as numbers -/
  nonFinite : Bool

/-! ## Strings -/

/-- Where the string automaton stands; `high` is a pending high surrogate. -/
inductive StringState where
  | plain (high : Option Nat)
  | continuing (low high : Nat) (ranges : List (Nat × Nat))
  | escape (high : Option Nat)
  | unicode (high : Option Nat) (value left : Nat)
  deriving DecidableEq, Repr

/-- What one character does to the string automaton. -/
inductive StringStep (υ : Type) where
  | close (units : List υ)
  | next (state : StringState) (units : List υ)
  | reject

/-- `0xD800`-`0xDBFF`. -/
def isHighSurrogate (unit : Nat) : Bool := 0xD800 ≤ unit && unit ≤ 0xDBFF

/-- `0xDC00`-`0xDFFF`. -/
def isLowSurrogate (unit : Nat) : Bool := 0xDC00 ≤ unit && unit ≤ 0xDFFF

/-- The code point of a surrogate pair. -/
def joinSurrogates (high low : Nat) : Nat :=
  0x10000 + (high - 0xD800) * 0x400 + (low - 0xDC00)

/-- The code point a one-letter escape stands for. -/
def simpleEscape : Char → Option Nat
  | '"' => some 0x22
  | '\\' => some 0x5C
  | '/' => some 0x2F
  | 'b' => some 0x08
  | 'f' => some 0x0C
  | 'n' => some 0x0A
  | 'r' => some 0x0D
  | 't' => some 0x09
  | _ => none

/-- Give up a pending high surrogate. -/
def Dialect.flush (d : Dialect υ) : Option Nat → Option (List υ)
  | none => some []
  | some high => d.loneSurrogate high

/-- The state after an unescaped character whose followers lie in `ranges`. -/
def afterRaw : List (Nat × Nat) → StringState
  | [] => .plain none
  | (low, high) :: ranges => .continuing low high ranges

/-- A `\u` escape read on its own. -/
def freshEscape (d : Dialect υ) (units : List υ) (unit : Nat) : StringStep υ :=
  if isHighSurrogate unit then .next (.plain (some unit)) units
  else if isLowSurrogate unit then
    match d.loneSurrogate unit with
    | some more => .next (.plain none) (units ++ more)
    | none => .reject
  else .next (.plain none) (units ++ d.emit unit)

/-- A `\u` escape after a possibly pending high surrogate. -/
def unicodeEscape (d : Dialect υ) : Option Nat → Nat → StringStep υ
  | none, unit => freshEscape d [] unit
  | some high, unit =>
      if isLowSurrogate unit then .next (.plain none) (d.emit (joinSurrogates high unit))
      else
        match d.loneSurrogate high with
        | some units => freshEscape d units unit
        | none => .reject

/-- One character of a string literal, after the opening quote. -/
def stringStep (d : Dialect υ) : StringState → Char → StringStep υ
  | .plain high, c =>
      if c = '\\' then .next (.escape high) []
      else
        match d.flush high with
        | none => .reject
        | some units =>
            if c = '"' then .close units
            else if c.toNat < 0x20 then .reject
            else
              match d.continuation c with
              | some ranges => .next (afterRaw ranges) (units ++ [d.raw c])
              | none => .reject
  | .continuing low high ranges, c =>
      if low ≤ c.toNat ∧ c.toNat ≤ high then .next (afterRaw ranges) [d.raw c] else .reject
  | .escape high, c =>
      if c = 'u' then .next (.unicode high 0 4) []
      else
        match d.flush high, simpleEscape c with
        | some units, some point => .next (.plain none) (units ++ d.emit point)
        | _, _ => .reject
  | .unicode high value left, c =>
      match digitIn 16 c with
      | none => .reject
      | some digit =>
          if left ≤ 1 then unicodeEscape d high (value * 16 + digit)
          else .next (.unicode high (value * 16 + digit) (left - 1)) []

/-- The rest of a string literal: its units and the text after the closing
quote. -/
def scanString (d : Dialect υ) : StringState → List Char → Option (List υ × List Char)
  | _, [] => none
  | state, c :: rest =>
      match stringStep d state c with
      | .reject => none
      | .close units => some (units, rest)
      | .next state' units =>
          match scanString d state' rest with
          | some (more, rest') => some (units ++ more, rest')
          | none => none

theorem scanString_length_lt (d : Dialect υ) :
    ∀ (text : List Char) (state : StringState) (value : List υ) (rest : List Char),
      scanString d state text = some (value, rest) → rest.length < text.length := by
  intro text
  induction text with
  | nil => intro state value rest h; cases h
  | cons c text ih =>
      intro state value rest h
      unfold scanString at h
      split at h
      · cases h
      · cases h
        simp
      · split at h
        · rename_i more rest' hrest
          cases h
          have := ih _ _ _ hrest
          simp only [List.length_cons]
          omega
        · cases h

theorem scanString_append (d : Dialect υ) (more : List Char) :
    ∀ (text : List Char) (state : StringState) (value : List υ) (rest : List Char),
      scanString d state text = some (value, rest) →
      scanString d state (text ++ more) = some (value, rest ++ more) := by
  intro text
  induction text with
  | nil => intro state value rest h; cases h
  | cons c text ih =>
      intro state value rest h
      rw [List.cons_append, scanString]
      unfold scanString at h
      split at h
      · cases h
      · rename_i units hstep
        cases h
        simp
      · rename_i state' units hstep
        split at h
        · rename_i tail rest' hrest
          cases h
          simp [ih _ _ _ hrest]
        · cases h

/-! ## Numbers -/

/-- The states of the number grammar after its first character. -/
inductive NumberState where
  | minus
  | zero
  | any1
  | decimal1
  | decimal2
  | exponent
  | sign
  | any2
  deriving DecidableEq, Repr

/-- A number may end here. -/
def NumberState.accepting : NumberState → Bool
  | .zero | .any1 | .decimal2 | .any2 => true
  | .minus | .decimal1 | .exponent | .sign => false

/-- ASCII decimal digit. -/
def isDigit (c : Char) : Bool := '0' ≤ c && c ≤ '9'

/-- The next state of the number automaton, `none` where the number stops. -/
def numberStep : NumberState → Char → Option NumberState
  | .minus, c => if c = '0' then some .zero else if isDigit c then some .any1 else none
  | .zero, c =>
      if c = '.' then some .decimal1
      else if c = 'e' ∨ c = 'E' then some .exponent else none
  | .any1, c =>
      if isDigit c then some .any1
      else if c = '.' then some .decimal1
      else if c = 'e' ∨ c = 'E' then some .exponent else none
  | .decimal1, c => if isDigit c then some .decimal2 else none
  | .decimal2, c =>
      if isDigit c then some .decimal2
      else if c = 'e' ∨ c = 'E' then some .exponent else none
  | .exponent, c =>
      if c = '+' ∨ c = '-' then some .sign else if isDigit c then some .any2 else none
  | .sign, c => if isDigit c then some .any2 else none
  | .any2, c => if isDigit c then some .any2 else none

/-- The rest of a number: its spelling and the text after it. -/
def scanNumber : NumberState → List Char → Option (List Char × List Char)
  | state, [] => if state.accepting then some ([], []) else none
  | state, c :: rest =>
      match numberStep state c with
      | some state' =>
          match scanNumber state' rest with
          | some (lexeme, rest') => some (c :: lexeme, rest')
          | none => none
      | none => if state.accepting then some ([], c :: rest) else none

theorem scanNumber_length_le :
    ∀ (text : List Char) (state : NumberState) (lexeme rest : List Char),
      scanNumber state text = some (lexeme, rest) → rest.length ≤ text.length := by
  intro text
  induction text with
  | nil =>
      intro state lexeme rest h
      unfold scanNumber at h
      split at h
      · cases h
        simp
      · cases h
  | cons c text ih =>
      intro state lexeme rest h
      unfold scanNumber at h
      split at h
      · split at h
        · rename_i tail rest' hrest
          cases h
          have := ih _ _ _ hrest
          simp only [List.length_cons]
          omega
        · cases h
      · split at h
        · cases h
          simp
        · cases h

/-- A number that does not touch the end of the text is unaffected by what
follows. -/
theorem scanNumber_append (more : List Char) :
    ∀ (text : List Char) (state : NumberState) (lexeme rest : List Char),
      scanNumber state text = some (lexeme, rest) → rest ≠ [] →
      scanNumber state (text ++ more) = some (lexeme, rest ++ more) := by
  intro text
  induction text with
  | nil =>
      intro state lexeme rest h hne
      unfold scanNumber at h
      split at h
      · cases h
        exact absurd rfl hne
      · cases h
  | cons c text ih =>
      intro state lexeme rest h hne
      rw [List.cons_append, scanNumber]
      unfold scanNumber at h
      split at h
      · rename_i state' hstep
        split at h
        · rename_i tail rest' hrest
          cases h
          simp [ih _ _ _ hrest hne]
        · cases h
      · rename_i hstep
        split at h
        · rename_i hacc
          cases h
          simp [hacc]
        · cases h

/-! ## Tokens -/

/-- The tokens of the JSON grammar. -/
inductive Token (υ : Type) where
  | beginArray
  | endArray
  | beginObject
  | endObject
  | nameSeparator
  | valueSeparator
  | literalNull
  | literalTrue
  | literalFalse
  | str (value : List υ)
  | num (lexeme : List Char)
  | endOfInput
  | error

/-- The four JSON white space characters. -/
def isWhitespace (c : Char) : Bool := c == ' ' || c == '\t' || c == '\n' || c == '\r'

/-- Match a literal text. -/
def scanLiteral : List Char → List Char → Option (List Char)
  | [], rest => some rest
  | _ :: _, [] => none
  | expected :: literal, c :: rest =>
      if c = expected then scanLiteral literal rest else none

theorem scanLiteral_eq_some {literal text rest : List Char}
    (h : scanLiteral literal text = some rest) : text = literal ++ rest := by
  induction literal generalizing text with
  | nil =>
      simp only [scanLiteral, Option.some.injEq] at h
      simpa using h
  | cons expected literal ih =>
      cases text with
      | nil => cases h
      | cons c text =>
          simp only [scanLiteral] at h
          split at h
          · rename_i hc
            rw [hc, ih h, List.cons_append]
          · cases h

theorem scanLiteral_append (literal rest : List Char) :
    scanLiteral literal (literal ++ rest) = some rest := by
  induction literal with
  | nil => rfl
  | cons expected literal ih => simp [scanLiteral, ih]

/-- The token of a literal whose first character has been read. -/
def literalToken (literal : List Char) (token : Token υ) (rest : List Char) :
    Token υ × List Char :=
  match scanLiteral literal rest with
  | some rest' => (token, rest')
  | none => (.error, [])

/-- The token of a number whose first character has been read. -/
def numberToken (first : Char) (state : NumberState) (rest : List Char) :
    Token υ × List Char :=
  match scanNumber state rest with
  | some (lexeme, rest') => (.num (first :: lexeme), rest')
  | none => (.error, [])

/-- A minus sign: a number, or the dialect's negative infinity. -/
def minusToken (d : Dialect υ) (rest : List Char) : Token υ × List Char :=
  match d.nonFinite, scanLiteral ['I', 'n', 'f', 'i', 'n', 'i', 't', 'y'] rest with
  | true, some rest' =>
      (.num ['-', 'I', 'n', 'f', 'i', 'n', 'i', 't', 'y'], rest')
  | _, _ => numberToken '-' .minus rest

/-- A string whose opening quote has been read. -/
def stringToken (d : Dialect υ) (rest : List Char) : Token υ × List Char :=
  match scanString d (.plain none) rest with
  | some (value, rest') => (.str value, rest')
  | none => (.error, [])

/-- How to go on after the first character of a token, which is no white
space. -/
def tokenAt (d : Dialect υ) (c : Char) : List Char → Token υ × List Char :=
  match c with
  | '[' => fun rest => (.beginArray, rest)
  | ']' => fun rest => (.endArray, rest)
  | '{' => fun rest => (.beginObject, rest)
  | '}' => fun rest => (.endObject, rest)
  | ':' => fun rest => (.nameSeparator, rest)
  | ',' => fun rest => (.valueSeparator, rest)
  | 't' => literalToken ['r', 'u', 'e'] .literalTrue
  | 'f' => literalToken ['a', 'l', 's', 'e'] .literalFalse
  | 'n' => literalToken ['u', 'l', 'l'] .literalNull
  | '"' => stringToken d
  | '-' => minusToken d
  | '0' => numberToken '0' .zero
  | 'N' =>
      if d.nonFinite then literalToken ['a', 'N'] (.num ['N', 'a', 'N'])
      else fun _ => (.error, [])
  | 'I' =>
      if d.nonFinite then
        literalToken ['n', 'f', 'i', 'n', 'i', 't', 'y']
          (.num ['I', 'n', 'f', 'i', 'n', 'i', 't', 'y'])
      else fun _ => (.error, [])
  | c => if isDigit c then numberToken c .any1 else fun _ => (.error, [])

/-- Skip white space and read one token. -/
def scan (d : Dialect υ) (text : List Char) : Token υ × List Char :=
  match text.dropWhile isWhitespace with
  | [] => (.endOfInput, [])
  | c :: rest => tokenAt d c rest

/-! ## Tokens consume, and do not look past themselves -/

/-- The tokens after which no further text is read. -/
def Token.isStop : Token υ → Bool
  | .endOfInput | .error => true
  | _ => false

/-- A number token. -/
def Token.isNum : Token υ → Bool
  | .num _ => true
  | _ => false

/-- `scanner` leaves at most the text it was given and does not look past a token
that ends before the end of the text.  A stop token makes no promise, a number
only promises when a character follows it. -/
def Local (scanner : List Char → Token υ × List Char) : Prop :=
  ∀ text token rest, scanner text = (token, rest) → token.isStop = false →
    rest.length ≤ text.length ∧
      ∀ more, (token.isNum = true → rest ≠ []) → scanner (text ++ more) = (token, rest ++ more)

theorem local_ok (token : Token υ) : Local fun text => (token, text) := by
  intro text token' rest h _
  cases h
  exact ⟨Nat.le_refl _, fun more _ => rfl⟩

theorem local_error : Local fun _ => ((.error, []) : Token υ × List Char) := by
  intro text token rest h hstop
  cases h
  cases hstop

theorem local_literalToken (literal : List Char) (token : Token υ) :
    Local (literalToken literal token) := by
  intro text token' rest h hstop
  unfold literalToken at h
  split at h
  · rename_i rest' hscan
    cases h
    have htext := scanLiteral_eq_some hscan
    refine ⟨by simp [htext], fun more _ => ?_⟩
    rw [htext, List.append_assoc]
    simp [literalToken, scanLiteral_append]
  · cases h
    cases hstop

theorem local_numberToken (first : Char) (state : NumberState) :
    Local (numberToken (υ := υ) first state) := by
  intro text token rest h hstop
  unfold numberToken at h
  split at h
  · rename_i lexeme rest' hscan
    cases h
    refine ⟨scanNumber_length_le _ _ _ _ hscan, fun more hne => ?_⟩
    simp [numberToken, scanNumber_append more _ _ _ _ hscan (hne rfl)]
  · cases h
    cases hstop

theorem local_stringToken (d : Dialect υ) : Local (stringToken d) := by
  intro text token rest h hstop
  unfold stringToken at h
  split at h
  · rename_i value rest' hscan
    cases h
    refine ⟨Nat.le_of_lt (scanString_length_lt d _ _ _ _ hscan), fun more _ => ?_⟩
    simp [stringToken, scanString_append d more _ _ _ _ hscan]
  · cases h
    cases hstop

/-- After a minus sign a number has to go on with a digit. -/
theorem scanNumber_minus_eq_some {text lexeme rest : List Char}
    (h : scanNumber .minus text = some (lexeme, rest)) :
    ∃ c text', text = c :: text' ∧ c ≠ 'I' := by
  cases text with
  | nil => simp [scanNumber, NumberState.accepting] at h
  | cons c text =>
      refine ⟨c, text, rfl, ?_⟩
      rintro rfl
      have hstop : numberStep .minus 'I' = none := by decide
      simp [scanNumber, hstop, NumberState.accepting] at h

theorem local_minusToken (d : Dialect υ) : Local (minusToken d) := by
  intro text token rest h hstop
  unfold minusToken at h
  split at h
  · rename_i rest' hfinite hscan
    cases h
    have htext := scanLiteral_eq_some hscan
    refine ⟨?_, fun more _ => ?_⟩
    · rw [htext, List.length_append]
      omega
    · rw [htext, List.append_assoc]
      simp [minusToken, hfinite, scanLiteral]
  · -- the literal does not match, so the number automaton decided the token
    obtain ⟨hlength, happend⟩ := local_numberToken '-' .minus text token rest h hstop
    refine ⟨hlength, fun more hne => ?_⟩
    have hnumber := happend more hne
    unfold numberToken at h
    split at h
    · rename_i lexeme rest' hscan
      obtain ⟨c, text', rfl, hc⟩ := scanNumber_minus_eq_some hscan
      simpa [minusToken, scanLiteral, hc] using hnumber
    · cases h
      cases hstop

theorem local_tokenAt (d : Dialect υ) (c : Char) : Local (tokenAt d c) := by
  unfold tokenAt
  split
  · exact local_ok _
  · exact local_ok _
  · exact local_ok _
  · exact local_ok _
  · exact local_ok _
  · exact local_ok _
  · exact local_literalToken _ _
  · exact local_literalToken _ _
  · exact local_literalToken _ _
  · exact local_stringToken d
  · exact local_minusToken d
  · exact local_numberToken _ _
  · split
    · exact local_literalToken _ _
    · exact local_error
  · split
    · exact local_literalToken _ _
    · exact local_error
  · split
    · exact local_numberToken _ _
    · exact local_error

/-- Leading white space is skipped. -/
theorem scan_whitespace (d : Dialect υ) {blank : List Char}
    (hblank : ∀ c ∈ blank, isWhitespace c = true) (text : List Char) :
    scan d (blank ++ text) = scan d text := by
  induction blank with
  | nil => rfl
  | cons c blank ih =>
      have hc : isWhitespace c = true := hblank c List.mem_cons_self
      have hrest := ih fun c' hc' => hblank c' (List.mem_cons_of_mem c hc')
      rw [← hrest]
      simp [scan, hc]

/-- The token at the first character, when that is no white space. -/
theorem scan_cons (d : Dialect υ) {c : Char} (hc : isWhitespace c = false)
    (rest : List Char) : scan d (c :: rest) = tokenAt d c rest := by
  simp [scan, hc]

/-- A token that is no stop token leaves less text than there was. -/
theorem scan_length_lt {d : Dialect υ} {text rest : List Char} {token : Token υ}
    (h : scan d text = (token, rest)) (hstop : token.isStop = false) :
    rest.length < text.length := by
  unfold scan at h
  split at h
  · cases h
    cases hstop
  · rename_i c tail hdrop
    have hle := (local_tokenAt d c tail token rest h hstop).1
    have hdropped : (text.dropWhile isWhitespace).length ≤ text.length :=
      (List.dropWhile_sublist _).length_le
    rw [hdrop, List.length_cons] at hdropped
    omega

/-- A token that is no stop token is not changed by the text that follows, except
for a number that touches the end. -/
theorem scan_append {d : Dialect υ} {text rest : List Char} {token : Token υ}
    (h : scan d text = (token, rest)) (hstop : token.isStop = false)
    (more : List Char) (hnum : token.isNum = true → rest ≠ []) :
    scan d (text ++ more) = (token, rest ++ more) := by
  unfold scan at h
  split at h
  · cases h
    cases hstop
  · rename_i c tail hdrop
    have happend := (local_tokenAt d c tail token rest h hstop).2 more hnum
    have hdrop' : (text ++ more).dropWhile isWhitespace = c :: (tail ++ more) := by
      rw [List.dropWhile_append, hdrop]
      rfl
    simpa [scan, hdrop'] using happend

end Icflow.Foundation.Json
