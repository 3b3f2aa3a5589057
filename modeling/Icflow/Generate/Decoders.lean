import Icflow.Compare.Rejection
import Icflow.Generate.Scalars

set_option autoImplicit false

/-!
# One decoder, read twice

`loads` follows the calls of `json.scanner`, `parseStrict` keeps the open containers on a
stack.  On every text of characters they return the same: what a call returns is what the
stack machine hands to the innermost container.
-/

namespace Icflow.Generate

open Icflow.Foundation
open Icflow.Foundation.Json (codePointDialect Frame ParserState run resume complete)

/-! ## The stack machine on a text -/

section Machine

variable {c : Char} {text rest : List Char} {stack : List (Frame Nat)}

/-- What follows the white space. -/
def trim (text : List Char) : List Char := text.dropWhile Json.isWhitespace

/-- White space does not begin the text. -/
def Trimmed (text : List Char) : Prop := ∀ c rest, text = c :: rest → Json.isWhitespace c = false

theorem trimmed_trim (text : List Char) : Trimmed (trim text) := by
  intro c rest h
  have hhead := List.head?_dropWhile_not Json.isWhitespace text
  rw [← trim, h] at hhead
  exact hhead

theorem skipBlank_trim (text : List Char) : skipBlank (codes text) = codes (trim text) :=
  skipBlank_codes text

theorem length_trim_le (text : List Char) : (trim text).length ≤ text.length :=
  (List.dropWhile_sublist _).length_le

theorem run_trim (state : ParserState Nat) (text : List Char) :
    run codePointDialect state text = run codePointDialect state (trim text) := by
  have hsplit : text.takeWhile Json.isWhitespace ++ trim text = text :=
    List.takeWhile_append_dropWhile
  have hblank : ∀ c ∈ text.takeWhile Json.isWhitespace, Json.isWhitespace c = true :=
    fun c hc => List.mem_takeWhile_imp hc
  have hrun := Json.run_whitespace codePointDialect state hblank (trim text)
  rwa [hsplit] at hrun

/-- The value of a document, if nothing but white space follows it. -/
def strict : Option (Json Nat × List Char) → Option (Json Nat)
  | none => none
  | some (value, rest) => if trim rest = [] then some value else none

/-- The token may begin with the character. -/
def Fits (c : Char) : Json.Token Nat → Prop
  | .beginArray => c = '['
  | .endArray => c = ']'
  | .beginObject => c = '{'
  | .endObject => c = '}'
  | .nameSeparator => c = ':'
  | .valueSeparator => c = ','
  | .str _ => c = '"'
  | .endOfInput => False
  | .literalNull | .literalTrue | .literalFalse | .num _ | .error => True

theorem fits_literalToken {token : Json.Token Nat} (h : Fits c token) (literal rest : List Char) :
    Fits c (Json.literalToken literal token rest).1 := by
  unfold Json.literalToken
  split
  · exact h
  · exact trivial

theorem fits_numberToken (first : Char) (state : Json.NumberState) (rest : List Char) :
    Fits c (Json.numberToken first state rest : Json.Token Nat × List Char).1 := by
  unfold Json.numberToken
  split
  · exact trivial
  · exact trivial

theorem fits_tokenAt (c : Char) (rest : List Char) :
    Fits c (Json.tokenAt codePointDialect c rest).1 := by
  unfold Json.tokenAt
  split
  case h_7 | h_8 | h_9 | h_13 | h_14 =>
    apply fits_literalToken
    exact trivial
  case h_10 =>
    unfold Json.stringToken
    split
    · rfl
    · exact trivial
  case h_11 =>
    unfold Json.minusToken
    split
    · exact trivial
    · exact fits_numberToken _ _ rest
  case h_12 => exact fits_numberToken _ _ rest
  case h_15 =>
    split
    · exact fits_numberToken _ _ rest
    · exact trivial
  all_goals rfl

theorem parseStrict_eq (text : List Char) :
    Json.parseStrict codePointDialect text = strict (run codePointDialect (.value []) text) := by
  have hend : ∀ rest, (Json.scan codePointDialect rest).1 = .endOfInput ↔ trim rest = [] := by
    intro rest
    unfold Json.scan
    rw [← trim]
    cases trim rest with
    | nil => exact iff_of_true rfl rfl
    | cons c tail =>
        refine iff_of_false ?_ (List.cons_ne_nil _ _)
        intro h
        have hfits := fits_tokenAt c tail
        dsimp only at h
        rw [h] at hfits
        exact hfits
  rw [Json.parseStrict, Json.parse]
  cases run codePointDialect (.value []) text with
  | none => rfl
  | some result =>
      obtain ⟨value, rest⟩ := result
      dsimp only
      rw [strict]
      split
      · rename_i h
        rw [if_pos ((hend rest).mp h)]
      · rename_i h
        rw [if_neg (mt (hend rest).mpr h)]

/-- Where no token begins the machine stops. -/
theorem run_of_stuck (h : Stuck text) (state : ParserState Nat) :
    run codePointDialect state text = none := by
  have hscan : (Json.scan codePointDialect text).1 = .error := by
    obtain ⟨c, rest, rfl, rfl | rfl | rfl⟩ := h
    · rfl
    · rfl
    · rfl
  rw [Json.run_eq, hscan, Json.parserStep_stop state rfl]
  rfl

theorem strict_resume_of_stuck (h : Stuck rest) (stack : List (Frame Nat)) (value : Json Nat) :
    strict (resume codePointDialect (complete stack value) rest) = none := by
  cases stack with
  | nil =>
      have hrest : trim rest ≠ [] := by
        obtain ⟨c, rest, rfl, rfl | rfl | rfl⟩ := h
        · exact List.cons_ne_nil _ _
        · exact List.cons_ne_nil _ _
        · exact List.cons_ne_nil _ _
      exact if_neg hrest
  | cons frame stack =>
      cases frame with
      | array done => exact congrArg strict (run_of_stuck h _)
      | object done name => exact congrArg strict (run_of_stuck h _)

/-! ## What is expected next -/

/-- One step at a character that is no white space. -/
theorem run_trimmed (h : Trimmed (c :: rest)) (state : ParserState Nat) :
    run codePointDialect state (c :: rest) =
      resume codePointDialect (Json.parserStep state (Json.tokenAt codePointDialect c rest).1)
        (Json.tokenAt codePointDialect c rest).2 :=
  Json.run_cons codePointDialect state (h c rest rfl) rest

theorem run_nil (state : ParserState Nat) : run codePointDialect state [] = none := by
  rw [Json.run_eq, Json.scan, List.dropWhile_nil]
  dsimp only
  rw [Json.parserStep_stop state rfl]
  rfl

theorem run_elements_comma (done : List (Json Nat)) (stack : List (Frame Nat)) (more : List Char) :
    run codePointDialect (.elements done stack) (',' :: more) =
      run codePointDialect (.value (.array done :: stack)) more := by
  rw [Json.run_cons codePointDialect _ (by decide)]
  rfl

theorem run_elements_end (done : List (Json Nat)) (stack : List (Frame Nat)) (more : List Char) :
    run codePointDialect (.elements done stack) (']' :: more) =
      resume codePointDialect (complete stack (.arr done)) more := by
  rw [Json.run_cons codePointDialect _ (by decide)]
  rfl

theorem run_elements_other (done : List (Json Nat)) (stack : List (Frame Nat))
    (h : Trimmed (c :: rest)) (hcomma : c ≠ ',') (hend : c ≠ ']') :
    run codePointDialect (.elements done stack) (c :: rest) = none := by
  have hfits := fits_tokenAt c rest
  rw [run_trimmed h]
  cases htoken : (Json.tokenAt codePointDialect c rest).1 with
  | valueSeparator =>
      rw [htoken] at hfits
      exact absurd hfits hcomma
  | endArray =>
      rw [htoken] at hfits
      exact absurd hfits hend
  | _ => rfl

theorem run_colon (done : List (Name × Json Nat)) (name : Name) (stack : List (Frame Nat))
    (more : List Char) :
    run codePointDialect (.colon done name stack) (':' :: more) =
      run codePointDialect (.value (.object done name :: stack)) more := by
  rw [Json.run_cons codePointDialect _ (by decide)]
  rfl

theorem run_colon_other (done : List (Name × Json Nat)) (name : Name) (stack : List (Frame Nat))
    (h : Trimmed (c :: rest)) (hcolon : c ≠ ':') :
    run codePointDialect (.colon done name stack) (c :: rest) = none := by
  have hfits := fits_tokenAt c rest
  rw [run_trimmed h]
  cases htoken : (Json.tokenAt codePointDialect c rest).1 with
  | nameSeparator =>
      rw [htoken] at hfits
      exact absurd hfits hcolon
  | _ => rfl

theorem run_members_comma (done : List (Name × Json Nat)) (stack : List (Frame Nat))
    (more : List Char) :
    run codePointDialect (.members done stack) (',' :: more) =
      run codePointDialect (.name done stack) more := by
  rw [Json.run_cons codePointDialect _ (by decide)]
  rfl

theorem run_members_end (done : List (Name × Json Nat)) (stack : List (Frame Nat))
    (more : List Char) :
    run codePointDialect (.members done stack) ('}' :: more) =
      resume codePointDialect (complete stack (.obj done)) more := by
  rw [Json.run_cons codePointDialect _ (by decide)]
  rfl

theorem run_members_other (done : List (Name × Json Nat)) (stack : List (Frame Nat))
    (h : Trimmed (c :: rest)) (hcomma : c ≠ ',') (hend : c ≠ '}') :
    run codePointDialect (.members done stack) (c :: rest) = none := by
  have hfits := fits_tokenAt c rest
  rw [run_trimmed h]
  cases htoken : (Json.tokenAt codePointDialect c rest).1 with
  | valueSeparator =>
      rw [htoken] at hfits
      exact absurd hfits hcomma
  | endObject =>
      rw [htoken] at hfits
      exact absurd hfits hend
  | _ => rfl

theorem run_name_other (done : List (Name × Json Nat)) (stack : List (Frame Nat))
    (h : Trimmed (c :: rest)) (hquote : c ≠ '"') :
    run codePointDialect (.name done stack) (c :: rest) = none := by
  have hfits := fits_tokenAt c rest
  rw [run_trimmed h]
  cases htoken : (Json.tokenAt codePointDialect c rest).1 with
  | str name =>
      rw [htoken] at hfits
      exact absurd hfits hquote
  | _ => rfl

/-- An array that has an element. -/
theorem run_firstElement (stack : List (Frame Nat)) (h : Trimmed (c :: rest)) (hend : c ≠ ']') :
    run codePointDialect (.firstElement stack) (c :: rest) =
      run codePointDialect (.value (.array [] :: stack)) (c :: rest) := by
  have htoken : (Json.tokenAt codePointDialect c rest).1 ≠ .endArray := by
    intro htoken
    have hfits := fits_tokenAt c rest
    rw [htoken] at hfits
    exact hend hfits
  rw [run_trimmed h, run_trimmed h, Json.parserStep_firstElement stack htoken]
  rfl

/-- An object that has a member. -/
theorem run_firstName (stack : List (Frame Nat)) (h : Trimmed (c :: rest)) (hend : c ≠ '}') :
    run codePointDialect (.firstName stack) (c :: rest) =
      run codePointDialect (.name [] stack) (c :: rest) := by
  have hfits := fits_tokenAt c rest
  rw [run_trimmed h, run_trimmed h]
  cases htoken : (Json.tokenAt codePointDialect c rest).1 with
  | endObject =>
      rw [htoken] at hfits
      exact absurd hfits hend
  | _ => rfl

/-- A string that is a value, and one that is a name. -/
theorem run_value_quote (stack : List (Frame Nat)) (rest : List Char) :
    run codePointDialect (.value stack) ('"' :: rest) =
      (Json.scanString codePointDialect (.plain none) rest).bind fun result =>
        resume codePointDialect (complete stack (.str result.1)) result.2 := by
  have htoken : Json.tokenAt codePointDialect '"' rest = Json.stringToken codePointDialect rest := rfl
  rw [Json.run_cons codePointDialect _ (by decide), htoken, Json.stringToken]
  cases Json.scanString codePointDialect (.plain none) rest with
  | none => rfl
  | some result => rfl

theorem run_name_quote (done : List (Name × Json Nat)) (stack : List (Frame Nat))
    (rest : List Char) :
    run codePointDialect (.name done stack) ('"' :: rest) =
      (Json.scanString codePointDialect (.plain none) rest).bind fun result =>
        run codePointDialect (.colon done result.1 stack) result.2 := by
  have htoken : Json.tokenAt codePointDialect '"' rest = Json.stringToken codePointDialect rest := rfl
  rw [Json.run_cons codePointDialect _ (by decide), htoken, Json.stringToken]
  cases Json.scanString codePointDialect (.plain none) rest with
  | none => rfl
  | some result => rfl

end Machine

/-! ## Arrays and objects -/

section Containers

variable {α : Type} {fuel : Nat} {c : Char} {text rest more : List Char}

/-- How the machine goes through a container with such contents. -/
structure Container (α : Type) where
  opening : Char
  closing : Char
  close : List α → Json Nat
  /-- behind the opening character -/
  first : List (Frame Nat) → ParserState Nat
  /-- where one of the contents is expected -/
  inside : List α → List (Frame Nat) → ParserState Nat
  /-- behind one of the contents -/
  behind : List α → List (Frame Nat) → ParserState Nat
  closing_mem : closing ∈ [',', ']', '}']
  opens : ∀ stack rest, run codePointDialect (.value stack) (opening :: rest) =
    run codePointDialect (first stack) rest
  empty : ∀ stack more, run codePointDialect (first stack) (closing :: more) =
    resume codePointDialect (complete stack (close [])) more
  enters : ∀ {c more} stack, Trimmed (c :: more) → c ≠ closing →
    run codePointDialect (first stack) (c :: more) =
      run codePointDialect (inside [] stack) (c :: more)
  separates : ∀ done stack more, run codePointDialect (behind done stack) (',' :: more) =
    run codePointDialect (inside done stack) more
  closes : ∀ done stack more, run codePointDialect (behind done stack) (closing :: more) =
    resume codePointDialect (complete stack (close done)) more
  stops : ∀ {c more} done stack, Trimmed (c :: more) → c ≠ ',' → c ≠ closing →
    run codePointDialect (behind done stack) (c :: more) = none

def arrays : Container (Json Nat) where
  opening := '['
  closing := ']'
  close := .arr
  first := .firstElement
  inside := fun done stack => .value (.array done :: stack)
  behind := .elements
  closing_mem := by decide
  opens := by
    intro stack rest
    rw [Json.run_cons codePointDialect _ (by decide)]
    rfl
  empty := by
    intro stack more
    rw [Json.run_cons codePointDialect _ (by decide)]
    rfl
  enters := run_firstElement
  separates := run_elements_comma
  closes := run_elements_end
  stops := run_elements_other

def objects : Container (Name × Json Nat) where
  opening := '{'
  closing := '}'
  close := .obj
  first := .firstName
  inside := .name
  behind := .members
  closing_mem := by decide
  opens := by
    intro stack rest
    rw [Json.run_cons codePointDialect _ (by decide)]
    rfl
  empty := by
    intro stack more
    rw [Json.run_cons codePointDialect _ (by decide)]
    rfl
  enters := run_firstName
  separates := run_members_comma
  closes := run_members_end
  stops := run_members_other

/-- What a call of `scan_once` returns is what the machine completes. -/
def AgreesAt (fuel : Nat) (text : List Char) : Prop :=
  (scanOnce fuel (codes text) = none ∧
      ∀ stack, strict (run codePointDialect (.value stack) text) = none) ∨
    ∃ value rest, scanOnce fuel (codes text) = some (value, codes rest) ∧
      (rest.length < text.length ∨ Stuck rest) ∧
        ∀ stack, strict (run codePointDialect (.value stack) text) =
          strict (resume codePointDialect (complete stack value) rest)

/-- What a reader of the contents returns is what the machine closes, when it begins in such a
state. -/
def Container.Agrees (container : Container α) (reader : Name → Option (List α × Name))
    (state : List α → List (Frame Nat) → ParserState Nat) (text : List Char) : Prop :=
  (reader (codes text) = none ∧
      ∀ done stack, strict (run codePointDialect (state done stack) text) = none) ∨
    ∃ contents rest, reader (codes text) = some (contents, codes rest) ∧
      rest.length < text.length ∧
        ∀ done stack, strict (run codePointDialect (state done stack) text) =
          strict (resume codePointDialect (complete stack (container.close (done ++ contents))) rest)

/-- So much fuel is enough for every text. -/
def ValueAgrees (fuel : Nat) : Prop :=
  ∀ text, Trimmed text → 2 * text.length ≤ fuel → AgreesAt fuel text

/-- The same for the contents of a container that is not empty. -/
def Container.ContentsAgree (container : Container α) (reader : Name → Option (List α × Name))
    (fuel : Nat) : Prop :=
  ∀ text, Trimmed text → 2 * text.length + 1 ≤ fuel → container.Agrees reader container.inside text

/-! ## One of the contents, and what follows it -/

/-- What is stuck goes on with no separator. -/
theorem length_of_separator {size : Nat} (h : rest.length < size ∨ Stuck rest)
    (htrim : trim rest = c :: more) (hc : c ∈ [',', ']', '}']) : more.length + 1 < size := by
  rcases h with hlt | ⟨first, tail, rfl, hfirst⟩
  · have hle := length_trim_le rest
    rw [htrim, List.length_cons] at hle
    omega
  · have hkept : Json.isWhitespace first = false := by
      rcases hfirst with rfl | rfl | rfl
      · rfl
      · rfl
      · rfl
    have hother : first ∉ [',', ']', '}'] := by
      rcases hfirst with rfl | rfl | rfl
      · decide
      · decide
      · decide
    rw [trim, List.dropWhile_cons, hkept] at htrim
    obtain rfl := (List.cons.inj htrim).1
    exact absurd hc hother

/-- Behind one of the contents there are others or the end. -/
def Container.readBehind (container : Container α) (reader : Name → Option (List α × Name))
    (item : α) : Name → Option (List α × Name)
  | [] => none
  | point :: more =>
      if point = ','.toNat then
        (reader (skipBlank more)).map fun result => (item :: result.1, result.2)
      else if point = container.closing.toNat then some ([item], more)
      else none

theorem Container.readBehind_other (container : Container α)
    {reader : Name → Option (List α × Name)} {item : α} {input : Name}
    (hcomma : ∀ more, input ≠ ','.toNat :: more)
    (hend : ∀ more, input ≠ container.closing.toNat :: more) :
    container.readBehind reader item input = none := by
  cases input with
  | nil => rfl
  | cons point more =>
      have hpoint : point ≠ ','.toNat := fun h => hcomma more (congrArg (· :: more) h)
      have hclosing : point ≠ container.closing.toNat := fun h => hend more (congrArg (· :: more) h)
      rw [readBehind, if_neg hpoint, if_neg hclosing]

/-- A value, which makes up one of the contents, and what is behind it. -/
def Container.readItem (container : Container α) (reader : Name → Option (List α × Name))
    (item : Json Nat → α) (fuel : Nat) (input : Name) : Option (List α × Name) :=
  (scanOnce fuel input).bind fun result =>
    container.readBehind reader (item result.1) (skipBlank result.2)

theorem Container.readItem_agrees (container : Container α)
    {reader : Name → Option (List α × Name)} (hreader : container.ContentsAgree reader fuel)
    {item : Json Nat → α} {frame : List α → Frame Nat}
    (hframe : ∀ done stack value, complete (frame done :: stack) value =
      .next (container.behind (done ++ [item value]) stack))
    (hvalue : AgreesAt fuel text) (hfuel : 2 * text.length ≤ fuel) :
    container.Agrees (container.readItem reader item fuel)
      (fun done stack => .value (frame done :: stack)) text := by
  unfold Container.Agrees Container.readItem
  rcases hvalue with ⟨hnone, hrun⟩ | ⟨value, rest, hsome, hlength, hrun⟩
  · rw [hnone]
    exact Or.inl ⟨rfl, fun done stack => hrun _⟩
  · have hnext : ∀ done stack, strict (run codePointDialect (.value (frame done :: stack)) text) =
        strict (run codePointDialect (container.behind (done ++ [item value]) stack) (trim rest)) := by
      intro done stack
      rw [hrun, hframe, ← run_trim]
      rfl
    have htrimmed := trimmed_trim rest
    rw [hsome, Option.bind_some, skipBlank_trim]
    simp only [hnext]
    cases htrim : trim rest with
    | nil => exact Or.inl ⟨rfl, fun done stack => congrArg strict (run_nil _)⟩
    | cons c more =>
        rw [htrim] at htrimmed
        by_cases hcomma : c = ','
        · subst hcomma
          have hmore := length_of_separator hlength htrim (by decide)
          have hle := length_trim_le more
          have hread : container.readBehind reader (item value) (codes (',' :: more)) =
              (reader (codes (trim more))).map fun result => (item value :: result.1, result.2) := by
            rw [codes_cons, Container.readBehind, if_pos rfl, skipBlank_trim]
          simp only [hread, container.separates]
          rcases hreader (trim more) (trimmed_trim more) (by omega) with
            ⟨hnone, hlater⟩ | ⟨contents, behind, hfound, hshort, hlater⟩
          · rw [hnone]
            refine Or.inl ⟨rfl, ?_⟩
            intro done stack
            rw [run_trim, hlater]
          · rw [hfound]
            refine Or.inr ⟨item value :: contents, behind, rfl, by omega, ?_⟩
            intro done stack
            rw [run_trim, hlater, List.append_assoc, List.singleton_append]
        · have hpoint : c.toNat ≠ ','.toNat := mt Char.toNat_inj.mp hcomma
          by_cases hend : c = container.closing
          · have hmore := length_of_separator hlength htrim (hend ▸ container.closing_mem)
            refine Or.inr ⟨[item value], more, ?_, by omega, ?_⟩
            · rw [codes_cons, Container.readBehind, if_neg hpoint, if_pos (congrArg _ hend)]
            · intro done stack
              rw [hend, container.closes]
          · refine Or.inl ⟨?_, ?_⟩
            · rw [codes_cons, Container.readBehind, if_neg hpoint,
                if_neg (mt Char.toNat_inj.mp hend)]
            · intro done stack
              rw [container.stops _ _ htrimmed hcomma hend]
              rfl

/-! ## A container -/

theorem agreesAt_container (container : Container α) {reader : Name → Option (List α × Name)}
    (hempty : ∀ more, trim rest = container.closing :: more →
      scanOnce (fuel + 1) (codes (container.opening :: rest)) =
        some (container.close [], codes more))
    (hfull : (∀ more, trim rest ≠ container.closing :: more) →
      scanOnce (fuel + 1) (codes (container.opening :: rest)) =
        (reader (codes (trim rest))).map fun result => (container.close result.1, result.2))
    (hreader : container.ContentsAgree reader fuel)
    (hfuel : 2 * (container.opening :: rest).length ≤ fuel + 1) :
    AgreesAt (fuel + 1) (container.opening :: rest) := by
  have hrun : ∀ stack, run codePointDialect (.value stack) (container.opening :: rest) =
      run codePointDialect (container.first stack) (trim rest) := by
    intro stack
    rw [container.opens, run_trim]
  have hle := length_trim_le rest
  have htrimmed := trimmed_trim rest
  rw [List.length_cons] at hfuel
  unfold AgreesAt
  simp only [hrun]
  by_cases hend : ∃ more, trim rest = container.closing :: more
  · obtain ⟨more, hmore⟩ := hend
    rw [hmore, List.length_cons] at hle
    refine Or.inr ⟨container.close [], more, hempty more hmore, Or.inl ?_, ?_⟩
    · rw [List.length_cons]
      omega
    · intro stack
      rw [hmore, container.empty]
  · have hfirst : ∀ stack, strict (run codePointDialect (container.first stack) (trim rest)) =
        strict (run codePointDialect (container.inside [] stack) (trim rest)) := by
      intro stack
      cases htrim : trim rest with
      | nil => rw [run_nil, run_nil]
      | cons c more =>
          rw [htrim] at htrimmed
          have hc : c ≠ container.closing := by
            rintro rfl
            exact hend ⟨more, htrim⟩
          rw [container.enters stack htrimmed hc]
    simp only [hfull (not_exists.mp hend), hfirst]
    rcases hreader (trim rest) htrimmed (by omega) with
      ⟨hnone, hlater⟩ | ⟨contents, behind, hfound, hshort, hlater⟩
    · rw [hnone]
      exact Or.inl ⟨rfl, fun stack => hlater [] stack⟩
    · rw [hfound]
      refine Or.inr ⟨container.close contents, behind, rfl, Or.inl ?_, fun stack => hlater [] stack⟩
      rw [List.length_cons]
      omega

end Containers

/-! ## Values, elements and members -/

section Agreement

variable {fuel : Nat} {c : Char} {text rest more : List Char}

theorem arrays_readItem (fuel : Nat) (input : Name) :
    arrays.readItem (scanElements fuel) id fuel input =
      match scanOnce fuel input with
      | none => none
      | some (value, rest) =>
          match skipBlank rest with
          | 44 :: more =>
              (scanElements fuel (skipBlank more)).map fun result =>
                (value :: result.1, result.2)
          | 93 :: more => some ([value], more)
          | _ => none := by
  unfold Container.readItem
  cases scanOnce fuel input with
  | none => rfl
  | some result =>
      rw [Option.bind_some]
      dsimp only
      split
      · rename_i heq
        rw [heq]
        rfl
      · rename_i heq
        rw [heq]
        rfl
      · rename_i hcomma hend
        exact arrays.readBehind_other hcomma hend

theorem objects_readItem (fuel : Nat) (name input : Name) :
    objects.readItem (scanMembers fuel) (fun value => (name, value)) fuel input =
      match scanOnce fuel input with
      | none => none
      | some (value, rest) =>
          match skipBlank rest with
          | 44 :: more =>
              (scanMembers fuel (skipBlank more)).map fun result =>
                ((name, value) :: result.1, result.2)
          | 125 :: more => some ([(name, value)], more)
          | _ => none := by
  unfold Container.readItem
  cases scanOnce fuel input with
  | none => rfl
  | some result =>
      rw [Option.bind_some]
      dsimp only
      split
      · rename_i heq
        rw [heq]
        rfl
      · rename_i heq
        rw [heq]
        rfl
      · rename_i hcomma hend
        exact objects.readBehind_other hcomma hend

theorem scanElements_succ (fuel : Nat) :
    scanElements (fuel + 1) = arrays.readItem (scanElements fuel) id fuel :=
  funext fun input => (arrays_readItem fuel input).symm

theorem elementsAgree_succ (hvalue : ValueAgrees fuel)
    (helements : arrays.ContentsAgree (scanElements fuel) fuel) :
    arrays.ContentsAgree (scanElements (fuel + 1)) (fuel + 1) := by
  intro text htext hfuel
  rw [scanElements_succ]
  exact arrays.readItem_agrees helements (fun done stack value => rfl)
    (hvalue text htext (by omega)) (by omega)

/-- Nothing else stands between a name and its value. -/
theorem colon_other {α : Type} {f : Name → Option α} (hcolon : c ≠ ':') (rest : List Char) :
    (match codes (c :: rest) with
      | 58 :: more => f more
      | _ => none) = none := by
  split
  · rename_i heq
    exact absurd ((@Char.toNat_inj c ':').mp (List.cons.inj heq).1) hcolon
  · rfl

theorem scanMembers_quote (fuel : Nat) (rest : List Char) :
    scanMembers (fuel + 1) (codes ('"' :: rest)) =
      (Json.scanString codePointDialect (.plain none) rest).bind fun result =>
        match skipBlank (codes result.2) with
        | 58 :: more =>
            objects.readItem (scanMembers fuel) (fun value => (result.1, value)) fuel (skipBlank more)
        | _ => none := by
  have hread := scanString_codes rest.length (rest.length + 1) rest (Nat.le_refl _)
    (Nat.lt_succ_self _)
  have hquote : codes ('"' :: rest) = 34 :: codes rest := rfl
  simp only [objects_readItem]
  rw [hquote, scanMembers, length_codes, hread]
  cases Json.scanString codePointDialect (.plain none) rest with
  | none => rfl
  | some result => rfl

theorem membersAgree_succ (hvalue : ValueAgrees fuel)
    (hmembers : objects.ContentsAgree (scanMembers fuel) fuel) :
    objects.ContentsAgree (scanMembers (fuel + 1)) (fuel + 1) := by
  intro text htext hfuel
  have hinside : ∀ done stack, objects.inside done stack = .name done stack := fun _ _ => rfl
  unfold Container.Agrees
  simp only [hinside]
  cases text with
  | nil => exact Or.inl ⟨rfl, fun done stack => congrArg strict (run_nil _)⟩
  | cons c rest =>
      by_cases hquote : c = '"'
      · subst hquote
        rw [List.length_cons] at hfuel
        simp only [scanMembers_quote, run_name_quote]
        cases hname : Json.scanString codePointDialect (.plain none) rest with
        | none => exact Or.inl ⟨rfl, fun done stack => rfl⟩
        | some result =>
            have hshort := Json.scanString_length_lt codePointDialect _ _ _ _ hname
            have hle := length_trim_le result.2
            have htrimmed := trimmed_trim result.2
            simp only [Option.bind_some, skipBlank_trim result.2]
            have hcolon : ∀ done stack,
                run codePointDialect (.colon done result.1 stack) result.2 =
                  run codePointDialect (.colon done result.1 stack) (trim result.2) :=
              fun done stack => run_trim _ _
            simp only [hcolon]
            cases htrim : trim result.2 with
            | nil => exact Or.inl ⟨rfl, fun done stack => congrArg strict (run_nil _)⟩
            | cons first more =>
                rw [htrim] at htrimmed
                rw [htrim, List.length_cons] at hle
                by_cases hfirst : first = ':'
                · subst hfirst
                  have hmore := length_trim_le more
                  have hframe : ∀ done stack value,
                      complete (.object done result.1 :: stack) value =
                        .next (objects.behind (done ++ [(result.1, value)]) stack) :=
                    fun _ _ _ => rfl
                  simp only [run_colon]
                  rcases objects.readItem_agrees hmembers hframe
                      (hvalue (trim more) (trimmed_trim more) (by omega)) (by omega) with
                    ⟨hnone, hrun⟩ | ⟨members, behind, hfound, hlength, hrun⟩
                  · refine Or.inl ⟨(congrArg _ (skipBlank_trim more)).trans hnone, ?_⟩
                    intro done stack
                    rw [run_trim, hrun]
                  · refine Or.inr ⟨members, behind, (congrArg _ (skipBlank_trim more)).trans hfound, ?_, ?_⟩
                    · rw [List.length_cons]
                      omega
                    · intro done stack
                      rw [run_trim, hrun]
                · refine Or.inl ⟨colon_other hfirst more, ?_⟩
                  intro done stack
                  rw [run_colon_other _ _ _ htrimmed hfirst]
                  rfl
      · have hnone : scanMembers (fuel + 1) (codes (c :: rest)) = none := by
          unfold scanMembers
          split
          · rename_i heq
            exact absurd ((@Char.toNat_inj c '"').mp (List.cons.inj heq).1) hquote
          · rfl
        refine Or.inl ⟨hnone, ?_⟩
        intro done stack
        rw [run_name_other _ _ htext hquote]
        rfl

theorem agreesAt_string (fuel : Nat) (rest : List Char) : AgreesAt (fuel + 1) ('"' :: rest) := by
  have hread : scanOnce (fuel + 1) (codes ('"' :: rest)) =
      (Json.scanString codePointDialect (.plain none) rest).map fun result =>
        (.str result.1, codes result.2) := by
    have hquote : codes ('"' :: rest) = 34 :: codes rest := rfl
    rw [hquote, scanOnce, if_pos rfl, length_codes,
      scanString_codes rest.length (rest.length + 1) rest (Nat.le_refl _) (Nat.lt_succ_self _),
      Option.map_map]
    rfl
  unfold AgreesAt
  simp only [hread, run_value_quote]
  cases hscan : Json.scanString codePointDialect (.plain none) rest with
  | none => exact Or.inl ⟨rfl, fun stack => rfl⟩
  | some result =>
      have hshort := Json.scanString_length_lt codePointDialect _ _ _ _ hscan
      exact Or.inr ⟨.str result.1, result.2, rfl, Or.inl (hshort.trans (Nat.lt_succ_self _)),
        fun stack => rfl⟩

theorem scanOnce_arrayEnd (fuel : Nat) (h : trim rest = ']' :: more) :
    scanOnce (fuel + 1) (codes ('[' :: rest)) = some (.arr [], codes more) := by
  have hopen : codes ('[' :: rest) = 91 :: codes rest := rfl
  rw [hopen, scanOnce, if_neg (by decide), if_neg (by decide), if_pos rfl, skipBlank_trim, h]
  rfl

theorem scanOnce_arrayElements (fuel : Nat) (h : ∀ more, trim rest ≠ ']' :: more) :
    scanOnce (fuel + 1) (codes ('[' :: rest)) =
      (scanElements fuel (codes (trim rest))).map fun result => (.arr result.1, result.2) := by
  have hopen : codes ('[' :: rest) = 91 :: codes rest := rfl
  rw [hopen, scanOnce, if_neg (by decide), if_neg (by decide), if_pos rfl, skipBlank_trim]
  split
  · rename_i heq
    obtain ⟨more, hmore, _⟩ := exists_cons_of_codes_eq ']' heq
    exact absurd hmore (h more)
  · rfl

theorem scanOnce_objectEnd (fuel : Nat) (h : trim rest = '}' :: more) :
    scanOnce (fuel + 1) (codes ('{' :: rest)) = some (.obj [], codes more) := by
  have hopen : codes ('{' :: rest) = 123 :: codes rest := rfl
  rw [hopen, scanOnce, if_neg (by decide), if_pos rfl, skipBlank_trim, h]
  rfl

theorem scanOnce_objectMembers (fuel : Nat) (h : ∀ more, trim rest ≠ '}' :: more) :
    scanOnce (fuel + 1) (codes ('{' :: rest)) =
      (scanMembers fuel (codes (trim rest))).map fun result => (.obj result.1, result.2) := by
  have hopen : codes ('{' :: rest) = 123 :: codes rest := rfl
  rw [hopen, scanOnce, if_neg (by decide), if_pos rfl, skipBlank_trim]
  split
  · rename_i heq
    obtain ⟨more, hmore, _⟩ := exists_cons_of_codes_eq '}' heq
    exact absurd hmore (h more)
  · rfl

theorem agreesAt_array (helements : arrays.ContentsAgree (scanElements fuel) fuel)
    (hfuel : 2 * ('[' :: rest).length ≤ fuel + 1) : AgreesAt (fuel + 1) ('[' :: rest) :=
  agreesAt_container arrays (fun _ hmore => scanOnce_arrayEnd fuel hmore)
    (scanOnce_arrayElements fuel) helements hfuel

theorem agreesAt_object (hmembers : objects.ContentsAgree (scanMembers fuel) fuel)
    (hfuel : 2 * ('{' :: rest).length ≤ fuel + 1) : AgreesAt (fuel + 1) ('{' :: rest) :=
  agreesAt_container objects (fun _ hmore => scanOnce_objectEnd fuel hmore)
    (scanOnce_objectMembers fuel) hmembers hfuel

theorem agreesAt_scalar (hopen : c ∉ ['"', '{', '[']) (htext : Trimmed (c :: rest)) :
    AgreesAt (fuel + 1) (c :: rest) := by
  have hread : scanOnce (fuel + 1) (codes (c :: rest)) = scanScalar (codes (c :: rest)) := by
    have hne : ∀ d ∈ ['"', '{', '['], c.toNat ≠ d.toNat := by
      intro d hd heq
      rw [Char.toNat_inj.mp heq] at hopen
      exact hopen hd
    have hquote : c.toNat ≠ 34 := hne '"' (by decide)
    have hbrace : c.toNat ≠ 123 := hne '{' (by decide)
    have hbracket : c.toNat ≠ 91 := hne '[' (by decide)
    rw [codes_cons, scanOnce, if_neg hquote, if_neg hbrace, if_neg hbracket]
  unfold AgreesAt
  simp only [hread, run_trimmed htext]
  rcases scalarAgrees hopen rest with ⟨value, tail, hscan, htail, hvalue⟩ |
    ⟨hreject, hscan | ⟨value, tail, hscan, hstuck⟩⟩
  · have hstep : ∀ stack, Json.parserStep (.value stack) (Json.tokenAt codePointDialect c rest).1 =
        complete stack value := hvalue
    have hstop : (Json.tokenAt codePointDialect c rest).1.isStop = false := by
      have hdone := hvalue []
      cases htoken : (Json.tokenAt codePointDialect c rest).1 with
      | endOfInput => rw [htoken] at hdone; cases hdone
      | error => rw [htoken] at hdone; cases hdone
      | _ => rfl
    have hpair : Json.tokenAt codePointDialect c rest =
        ((Json.tokenAt codePointDialect c rest).1, tail) := Prod.ext rfl htail
    have hle := (Json.local_tokenAt codePointDialect c rest _ tail hpair hstop).1
    refine Or.inr ⟨value, tail, hscan, Or.inl (Nat.lt_succ_of_le hle), ?_⟩
    intro stack
    rw [hstep, htail]
  · refine Or.inl ⟨hscan, ?_⟩
    intro stack
    rw [Json.parserStep, hreject]
    rfl
  · -- a number that the text goes on with: the one has an error, the other extra data
    refine Or.inr ⟨value, tail, hscan, Or.inr hstuck, ?_⟩
    intro stack
    rw [Json.parserStep, hreject, strict_resume_of_stuck hstuck]
    rfl

theorem valueAgrees_succ (helements : arrays.ContentsAgree (scanElements fuel) fuel)
    (hmembers : objects.ContentsAgree (scanMembers fuel) fuel) : ValueAgrees (fuel + 1) := by
  intro text htext hfuel
  cases text with
  | nil => exact Or.inl ⟨rfl, fun stack => congrArg strict (run_nil _)⟩
  | cons c rest =>
      by_cases hopen : c ∈ ['"', '{', '[']
      · simp only [List.mem_cons, List.not_mem_nil, or_false] at hopen
        rcases hopen with rfl | rfl | rfl
        · exact agreesAt_string fuel rest
        · exact agreesAt_object hmembers hfuel
        · exact agreesAt_array helements hfuel
      · exact agreesAt_scalar hopen htext

/-- By induction on the fuel, for the three functions at once. -/
theorem decoders_agree (fuel : Nat) : ValueAgrees fuel ∧
    arrays.ContentsAgree (scanElements fuel) fuel ∧ objects.ContentsAgree (scanMembers fuel) fuel := by
  induction fuel with
  | zero =>
      refine ⟨?_, ?_, ?_⟩
      · intro text htext hfuel
        obtain rfl := List.length_eq_zero_iff.mp (show text.length = 0 by omega)
        exact Or.inl ⟨rfl, fun stack => congrArg strict (run_nil _)⟩
      · intro text htext hfuel
        omega
      · intro text htext hfuel
        omega
  | succ fuel ih =>
      obtain ⟨hvalue, helements, hmembers⟩ := ih
      exact ⟨valueAgrees_succ helements hmembers, elementsAgree_succ hvalue helements,
        membersAgree_succ hvalue hmembers⟩

end Agreement

/-! ## Documents -/

/-- A byte order mark begins no token. -/
theorem run_byteOrderMark {text : List Char} (h : (codes text).head? = some 0xFEFF)
    (state : ParserState Nat) : run codePointDialect state text = none := by
  cases text with
  | nil => cases h
  | cons c rest =>
      obtain rfl := (@Char.toNat_inj c '\uFEFF').mp (Option.some.inj h)
      have htoken : (Json.tokenAt codePointDialect '\uFEFF' rest).1 = .error := rfl
      rw [Json.run_cons codePointDialect _ (by decide), htoken, Json.parserStep_stop state rfl]
      rfl

/-- The two readings of `json.loads` are one. -/
theorem loads_eq_parseStrict (text : List Char) :
    loads (codes text) = Json.parseStrict codePointDialect text := by
  rw [parseStrict_eq, loads]
  split
  · rename_i hmark
    rw [run_byteOrderMark hmark]
    rfl
  · have hle := length_trim_le text
    rw [run_trim, length_codes, skipBlank_trim]
    rcases (decoders_agree (2 * text.length)).1 (trim text) (trimmed_trim text) (by omega) with
      ⟨hnone, hrun⟩ | ⟨value, rest, hsome, _, hrun⟩
    · rw [hnone, hrun]
    · have hdone : resume codePointDialect (complete [] value) rest = some (value, rest) := rfl
      rw [hsome, hrun, hdone, strict]
      dsimp only
      rw [skipBlank_trim]
      simp only [codes_eq_nil_iff]

/-- So the comparison and the generator read a file alike. -/
theorem decodeJson_eq_loads (bytes : List Char) :
    Compare.decodeJson bytes = (utf8Decode bytes).bind fun text => loads (codes text) := by
  have hread : (fun text => loads (codes text)) = Json.parseStrict codePointDialect :=
    funext loads_eq_parseStrict
  rw [hread, Compare.decodeJson]

end Icflow.Generate
