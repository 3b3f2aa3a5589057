import Icflow.Foundation.Json.Dialects
import Icflow.Generate.Loads

set_option autoImplicit false

/-!
# Strings and scalars, read twice

`Loads` reads what `json.loads` reads with the functions of Python's `json.scanner`; the
scanner of `Foundation.Json` reads the same text one token at a time.  On strings and
constants they agree.  A number they may read differently where it is followed by what can
follow no number; there the scanner has an error, and the text is no document for either.
-/

namespace Icflow.Generate

open Icflow.Foundation
open Icflow.Foundation.Json (codePointDialect StringState StringStep)

/-- The code points of a text. -/
def codes (text : List Char) : Name := text.map Char.toNat

/-! ## Characters -/

section Characters

variable {c : Char} {rest text : List Char}

theorem codes_cons (c : Char) (rest : List Char) : codes (c :: rest) = c.toNat :: codes rest := rfl

theorem codes_append (front rest : List Char) : codes (front ++ rest) = codes front ++ codes rest :=
  List.map_append

theorem length_codes (text : List Char) : (codes text).length = text.length :=
  List.length_map _

theorem ofNat_codes (text : List Char) : (codes text).map Char.ofNat = text := by
  have hid : Char.ofNat ∘ Char.toNat = id := by
    funext c
    exact Char.ofNat_toNat c
  rw [codes, List.map_map, hid, List.map_id]

theorem isBlank_toNat (c : Char) : isBlank c.toNat = Json.isWhitespace c := by
  have heq : ∀ d : Char, (c.toNat == d.toNat) = (c == d) := by
    intro d
    rw [Bool.eq_iff_iff, beq_iff_eq, beq_iff_eq]
    exact Char.toNat_inj
  unfold isBlank Json.isWhitespace
  rw [← heq ' ', ← heq '\t', ← heq '\n', ← heq '\r']
  rfl

theorem skipBlank_codes (text : List Char) :
    skipBlank (codes text) = codes (text.dropWhile Json.isWhitespace) := by
  have hblank : isBlank ∘ Char.toNat = Json.isWhitespace := by
    funext c
    exact isBlank_toNat c
  rw [skipBlank, codes, List.dropWhile_map, hblank, codes]

theorem isDigit_toNat (c : Char) : isDigit c.toNat = Json.isDigit c := rfl

theorem takeWhile_codes (text : List Char) :
    (codes text).takeWhile isDigit = codes (text.takeWhile Json.isDigit) := by
  rw [codes, List.takeWhile_map]
  rfl

theorem dropWhile_codes (text : List Char) :
    (codes text).dropWhile isDigit = codes (text.dropWhile Json.isDigit) := by
  rw [codes, List.dropWhile_map]
  rfl

theorem hexValue_toNat (c : Char) : hexValue c.toNat = digitIn 16 c := by
  have hdigit : '0' ≤ c ∧ c ≤ '9' ↔ 48 ≤ c.toNat ∧ c.toNat ≤ 57 := Iff.rfl
  have hlower : 'a' ≤ c ∧ c ≤ 'z' ↔ 97 ≤ c.toNat ∧ c.toNat ≤ 122 := Iff.rfl
  have hupper : 'A' ≤ c ∧ c ≤ 'Z' ↔ 65 ≤ c.toNat ∧ c.toNat ≤ 90 := Iff.rfl
  have hzero : '0'.toNat = 48 ∧ 'a'.toNat = 97 ∧ 'A'.toNat = 65 := ⟨rfl, rfl, rfl⟩
  simp only [hexValue, digitIn, digitValue, hdigit, hlower, hupper, hzero]
  split_ifs <;> grind

end Characters

/-! ## Strings -/

section Strings

variable {high : Option Nat} {c : Char} {rest text more : List Char}

/-- Go on with a string literal after one character. -/
def follow (step : StringStep Nat) (rest : List Char) : Option (Name × List Char) :=
  match step with
  | .reject => none
  | .close units => some (units, rest)
  | .next state units =>
      (Json.scanString codePointDialect state rest).map fun result => (units ++ result.1, result.2)

theorem scanString_cons (state : StringState) (c : Char) (rest : List Char) :
    Json.scanString codePointDialect state (c :: rest) =
      follow (Json.stringStep codePointDialect state c) rest := by
  rw [Json.scanString]
  unfold follow
  cases Json.stringStep codePointDialect state c with
  | reject => rfl
  | close units => rfl
  | next state units =>
      dsimp only
      cases Json.scanString codePointDialect state rest with
      | none => rfl
      | some result => rfl

theorem follow_next_nil (state : StringState) (rest : List Char) :
    follow (.next state []) rest = Json.scanString codePointDialect state rest := by
  change (Json.scanString codePointDialect state rest).map _ = _
  cases Json.scanString codePointDialect state rest with
  | none => rfl
  | some result => rfl

theorem follow_next_cons (state : StringState) (unit : Nat) (units : List Nat)
    (rest : List Char) :
    follow (.next state (unit :: units)) rest =
      (follow (.next state units) rest).map fun result => (unit :: result.1, result.2) := by
  change (Json.scanString codePointDialect state rest).map _ =
    ((Json.scanString codePointDialect state rest).map _).map _
  rw [Option.map_map]
  rfl

/-- So many hexadecimal digits behind the value of those before. -/
def hexDigits : Nat → Nat → List Char → Option (Nat × List Char)
  | 0, value, text => some (value, text)
  | _ + 1, _, [] => none
  | count + 1, value, c :: rest =>
      (digitIn 16 c).bind fun digit => hexDigits count (value * 16 + digit) rest

theorem length_le_of_hexDigits {count value : Nat} {result : Nat × List Char}
    (h : hexDigits count value text = some result) : result.2.length ≤ text.length := by
  induction count generalizing value text with
  | zero =>
      cases h
      exact Nat.le_refl _
  | succ count ih =>
      cases text with
      | nil => cases h
      | cons c rest =>
          obtain ⟨digit, _, hrest⟩ := Option.bind_eq_some_iff.mp h
          exact (ih hrest).trans (Nat.le_succ _)

theorem hexUnit_codes (text : List Char) :
    hexUnit (codes text) = (hexDigits 4 0 text).map fun result => (result.1, codes result.2) := by
  rcases text with _ | ⟨a, _ | ⟨b, _ | ⟨c, _ | ⟨d, rest⟩⟩⟩⟩
  · rfl
  · simp [codes, hexUnit, hexDigits]
  · simp [codes, hexUnit, hexDigits]
  · simp [codes, hexUnit, hexDigits]
  · simp only [codes_cons, hexUnit, hexDigits, hexValue_toNat]
    cases digitIn 16 a <;> cases digitIn 16 b <;> cases digitIn 16 c <;> cases digitIn 16 d <;>
      simp

/-- The automaton in the middle of an escape. -/
theorem scanString_unicode (left value : Nat) (text : List Char) :
    Json.scanString codePointDialect (.unicode high value (left + 1)) text =
      (hexDigits (left + 1) value text).bind fun result =>
        follow (Json.unicodeEscape codePointDialect high result.1) result.2 := by
  induction left generalizing value text with
  | zero =>
      cases text with
      | nil => rfl
      | cons c rest =>
          rw [scanString_cons, Json.stringStep, hexDigits]
          cases digitIn 16 c with
          | none => rfl
          | some digit => rfl
  | succ left ih =>
      cases text with
      | nil => rfl
      | cons c rest =>
          rw [scanString_cons, Json.stringStep, hexDigits]
          cases digitIn 16 c with
          | none => rfl
          | some digit =>
              dsimp only
              rw [if_neg (by omega), follow_next_nil, Nat.add_sub_cancel, ih]
              rfl

theorem scanString_backslash (high : Option Nat) (rest : List Char) :
    Json.scanString codePointDialect (.plain high) ('\\' :: rest) =
      Json.scanString codePointDialect (.escape high) rest := by
  rw [scanString_cons]
  exact follow_next_nil (.escape high) rest

theorem scanString_u (high : Option Nat) (more : List Char) :
    Json.scanString codePointDialect (.escape high) ('u' :: more) =
      (hexDigits 4 0 more).bind fun result =>
        follow (Json.unicodeEscape codePointDialect high result.1) result.2 := by
  rw [scanString_cons]
  exact (follow_next_nil (.unicode high 0 4) more).trans (scanString_unicode 3 0 more)

/-- The letters behind a backslash. -/
theorem lookup_backslashEscapes (c : Char) :
    backslashEscapes.lookup c.toNat = Json.simpleEscape c := by
  unfold Json.simpleEscape
  split
  case h_9 hquote hslash hsolidus hb hf hn hr ht =>
    have hne : ∀ d : Char, (c = d → False) → (c.toNat != d.toNat) = true := by
      intro d hd
      rw [bne_iff_ne]
      exact fun heq => hd (Char.toNat_inj.mp heq)
    rw [List.lookup_eq_none_iff]
    simp only [backslashEscapes, List.forall_mem_cons]
    exact ⟨hne '"' hquote, hne '\\' hslash, hne '/' hsolidus, hne 'b' hb, hne 'f' hf, hne 'n' hn,
      hne 'r' hr, hne 't' ht, List.forall_mem_nil _⟩
  all_goals rfl

theorem stringStep_plain (hslash : c ≠ '\\') (high : Option Nat) :
    Json.stringStep codePointDialect (.plain high) c =
      if c = '"' then .close high.toList
      else if c.toNat < 32 then .reject
      else .next (.plain none) (high.toList ++ [c.toNat]) := by
  rw [Json.stringStep, if_neg hslash]
  cases high with
  | none => rfl
  | some unit => rfl

theorem stringStep_escape (hu : c ≠ 'u') (high : Option Nat) :
    Json.stringStep codePointDialect (.escape high) c =
      match Json.simpleEscape c with
      | none => .reject
      | some point => .next (.plain none) (high.toList ++ [point]) := by
  rw [Json.stringStep, if_neg hu]
  cases high with
  | none => cases Json.simpleEscape c <;> rfl
  | some unit => cases Json.simpleEscape c <;> rfl

/-- What an escape contributes stands behind what was pending. -/
theorem exists_freshEscape (unit : Nat) : ∃ state units, ∀ front,
    Json.freshEscape codePointDialect front unit = .next state (front ++ units) := by
  unfold Json.freshEscape
  cases Json.isHighSurrogate unit with
  | true =>
      refine ⟨.plain (some unit), [], ?_⟩
      intro front
      rw [List.append_nil]
      rfl
  | false =>
      refine ⟨.plain none, [unit], ?_⟩
      intro front
      cases Json.isLowSurrogate unit <;> rfl

/-- A high surrogate that no low one follows is a unit of its own. -/
theorem scanString_pending {unit : Nat}
    (halone : ∀ more result, text = '\\' :: 'u' :: more → hexDigits 4 0 more = some result →
      Json.isLowSurrogate result.1 = false) :
    Json.scanString codePointDialect (.plain (some unit)) text =
      (Json.scanString codePointDialect (.plain none) text).map fun result =>
        (unit :: result.1, result.2) := by
  cases text with
  | nil => rfl
  | cons c rest =>
      by_cases hslash : c = '\\'
      · subst hslash
        rw [scanString_backslash, scanString_backslash]
        cases rest with
        | nil => rfl
        | cons letter more =>
            by_cases hu : letter = 'u'
            · subst hu
              rw [scanString_u, scanString_u]
              cases hdigits : hexDigits 4 0 more with
              | none => rfl
              | some result =>
                  have hlow := halone more result rfl hdigits
                  obtain ⟨state, units, hescape⟩ := exists_freshEscape result.1
                  have hpending : Json.unicodeEscape codePointDialect (some unit) result.1 =
                      Json.freshEscape codePointDialect [unit] result.1 := by
                    rw [Json.unicodeEscape, hlow]
                    rfl
                  rw [Option.bind_some, Option.bind_some, hpending, Json.unicodeEscape, hescape,
                    hescape]
                  exact follow_next_cons state unit units result.2
            · rw [scanString_cons, scanString_cons, stringStep_escape hu, stringStep_escape hu]
              cases Json.simpleEscape letter with
              | none => rfl
              | some point => exact follow_next_cons (.plain none) unit [point] more
      · rw [scanString_cons, scanString_cons, stringStep_plain hslash, stringStep_plain hslash]
        split
        · rfl
        · split
          · rfl
          · exact follow_next_cons (.plain none) unit [c.toNat] rest

theorem exists_cons_of_codes_eq (c : Char) {points : Name} (h : codes text = c.toNat :: points) :
    ∃ more, text = c :: more ∧ codes more = points := by
  cases text with
  | nil => cases h
  | cons first more =>
      obtain ⟨hfirst, hmore⟩ := List.cons.inj h
      rw [Char.toNat_inj.mp hfirst]
      exact ⟨more, rfl, hmore⟩

theorem exists_of_codes_eq {points : Name} (h : codes text = 92 :: 117 :: points) :
    ∃ more, text = '\\' :: 'u' :: more := by
  obtain ⟨behind, rfl, hbehind⟩ := exists_cons_of_codes_eq '\\' h
  obtain ⟨more, rfl, _⟩ := exists_cons_of_codes_eq 'u' hbehind
  exact ⟨more, rfl⟩

theorem isHighSurrogate_iff {unit : Nat} :
    Json.isHighSurrogate unit = true ↔ 0xD800 ≤ unit ∧ unit ≤ 0xDBFF := by
  rw [Json.isHighSurrogate, Bool.and_eq_true, decide_eq_true_eq, decide_eq_true_eq]

theorem isLowSurrogate_iff {unit : Nat} :
    Json.isLowSurrogate unit = true ↔ 0xDC00 ≤ unit ∧ unit ≤ 0xDFFF := by
  rw [Json.isLowSurrogate, Bool.and_eq_true, decide_eq_true_eq, decide_eq_true_eq]

/-- An escape that no other one follows, or that is no high surrogate. -/
theorem unicodeEscape_alone {unit : Nat} (hdigits : hexDigits 4 0 text = some (unit, rest))
    (halone : Json.isHighSurrogate unit = true → ∀ more, rest ≠ '\\' :: 'u' :: more) :
    unicodeEscape (codes text) = some (unit, codes rest) := by
  have hunit := hexUnit_codes text
  rw [hdigits] at hunit
  simp only [unicodeEscape, hunit, Option.map_some]
  split
  · rename_i hhigh
    split
    · rename_i more heq
      obtain ⟨more, hrest⟩ := exists_of_codes_eq heq
      exact absurd hrest (halone (isHighSurrogate_iff.mpr hhigh) more)
    · rfl
  · rfl

/-- A high surrogate with another escape behind it. -/
theorem unicodeEscape_pair {unit : Nat}
    (hdigits : hexDigits 4 0 text = some (unit, '\\' :: 'u' :: more))
    (hhigh : Json.isHighSurrogate unit = true) :
    unicodeEscape (codes text) = (hexDigits 4 0 more).map fun result =>
      if Json.isLowSurrogate result.1 then (Json.joinSurrogates unit result.1, codes result.2)
      else (unit, codes ('\\' :: 'u' :: more)) := by
  have hunit := hexUnit_codes text
  have hescape : codes ('\\' :: 'u' :: more) = 92 :: 117 :: codes more := rfl
  rw [hdigits] at hunit
  simp only [unicodeEscape, hunit, Option.map_some, if_pos (isHighSurrogate_iff.mp hhigh), hescape,
    hexUnit_codes more]
  cases hexDigits 4 0 more with
  | none => rfl
  | some result =>
      simp only [Option.map_some, isLowSurrogate_iff]
      split
      · rfl
      · rfl

/-- What both read behind an escape that begins with so many digits. -/
theorem scanEscape_u {unit : Nat} (hdigits : hexDigits 4 0 more = some (unit, rest)) :
    (scanEscape (codes ('u' :: more)) = none ∧
        Json.scanString codePointDialect (.escape none) ('u' :: more) = none) ∨
      ∃ point tail, scanEscape (codes ('u' :: more)) = some (point, codes tail) ∧
        tail.length ≤ more.length ∧ Json.scanString codePointDialect (.escape none) ('u' :: more) =
          follow (.next (.plain none) [point]) tail := by
  have hescape : scanEscape (codes ('u' :: more)) = unicodeEscape (codes more) := rfl
  have hlength : rest.length ≤ more.length := length_le_of_hexDigits hdigits
  rw [hescape, scanString_u, hdigits, Option.bind_some, Json.unicodeEscape]
  by_cases hhigh : Json.isHighSurrogate unit = true
  · have hfresh : Json.freshEscape codePointDialect [] unit = .next (.plain (some unit)) [] := by
      rw [Json.freshEscape, if_pos hhigh]
    rw [hfresh, follow_next_nil]
    by_cases hpair : ∃ more', rest = '\\' :: 'u' :: more'
    · obtain ⟨more', rfl⟩ := hpair
      rw [unicodeEscape_pair hdigits hhigh]
      cases hsecond : hexDigits 4 0 more' with
      | none =>
          refine Or.inl ⟨rfl, ?_⟩
          rw [scanString_backslash, scanString_u, hsecond]
          rfl
      | some result =>
          have hbehind := length_le_of_hexDigits hsecond
          right
          rw [Option.map_some]
          cases hlow : Json.isLowSurrogate result.1 with
          | true =>
              refine ⟨_, result.2, rfl, ?_, ?_⟩
              · exact hbehind.trans ((Nat.le_add_right _ 2).trans hlength)
              · rw [scanString_backslash, scanString_u, hsecond, Option.bind_some,
                  Json.unicodeEscape, if_pos hlow]
                rfl
          | false =>
              refine ⟨unit, _, rfl, hlength, scanString_pending ?_⟩
              intro again found heq hfound
              obtain rfl := (List.cons.inj (List.cons.inj heq).2).2
              rw [hsecond, Option.some.injEq] at hfound
              rw [← hfound]
              exact hlow
    · have halone : ∀ more', rest ≠ '\\' :: 'u' :: more' := not_exists.mp hpair
      refine Or.inr ⟨unit, rest, unicodeEscape_alone hdigits fun _ => halone, hlength, ?_⟩
      exact scanString_pending fun again _ heq => absurd heq (halone again)
  · refine Or.inr ⟨unit, rest, unicodeEscape_alone hdigits fun h => absurd h hhigh, hlength, ?_⟩
    have hfresh : Json.freshEscape codePointDialect [] unit = .next (.plain none) [unit] := by
      rw [Json.freshEscape, if_neg hhigh]
      cases Json.isLowSurrogate unit <;> rfl
    rw [hfresh]

/-- What both read behind a backslash. -/
theorem scanEscape_codes (text : List Char) :
    (scanEscape (codes text) = none ∧
        Json.scanString codePointDialect (.escape none) text = none) ∨
      ∃ point tail, scanEscape (codes text) = some (point, codes tail) ∧
        tail.length ≤ text.length ∧ Json.scanString codePointDialect (.escape none) text =
          follow (.next (.plain none) [point]) tail := by
  cases text with
  | nil => exact Or.inl ⟨rfl, rfl⟩
  | cons letter more =>
      by_cases hu : letter = 'u'
      · subst hu
        cases hdigits : hexDigits 4 0 more with
        | none =>
            have hunit := hexUnit_codes more
            rw [hdigits, Option.map_none] at hunit
            have hescape : scanEscape (codes ('u' :: more)) = unicodeEscape (codes more) := rfl
            rw [hescape, unicodeEscape, hunit, scanString_u, hdigits]
            exact Or.inl ⟨rfl, rfl⟩
        | some result =>
            rcases scanEscape_u hdigits with hnone | ⟨point, tail, hread, hle, hscan⟩
            · exact Or.inl hnone
            · exact Or.inr ⟨point, tail, hread, hle.trans (Nat.le_succ _), hscan⟩
      · have hletter : letter.toNat = 117 ↔ letter = 'u' := @Char.toNat_inj letter 'u'
        rw [codes_cons, scanEscape, if_neg (mt hletter.mp hu), lookup_backslashEscapes,
          scanString_cons, stringStep_escape hu]
        cases Json.simpleEscape letter with
        | none => exact Or.inl ⟨rfl, rfl⟩
        | some point => exact Or.inr ⟨point, more, rfl, Nat.le_succ _, rfl⟩

/-- Both read the same string. -/
theorem scanString_codes (size fuel : Nat) (text : List Char) (hsize : text.length ≤ size)
    (hfuel : text.length < fuel) :
    scanString fuel (codes text) =
      (Json.scanString codePointDialect (.plain none) text).map fun result =>
        (result.1, codes result.2) := by
  induction size generalizing fuel text with
  | zero =>
      obtain rfl := List.length_eq_zero_iff.mp (Nat.le_zero.mp hsize)
      cases fuel with
      | zero => rfl
      | succ fuel => rfl
  | succ size ih =>
      cases fuel with
      | zero => cases hfuel
      | succ fuel =>
          cases text with
          | nil => rfl
          | cons c rest =>
              rw [List.length_cons] at hsize hfuel
              have hnext : ∀ point (tail : List Char), tail.length ≤ rest.length →
                  (scanString fuel (codes tail)).map (fun result => (point :: result.1, result.2)) =
                    (follow (.next (.plain none) [point]) tail).map fun result =>
                      (result.1, codes result.2) := by
                intro point tail htail
                rw [ih fuel tail (by omega) (by omega)]
                unfold follow
                dsimp only
                rw [Option.map_map, Option.map_map]
                rfl
              have hquote : c.toNat = 34 ↔ c = '"' := @Char.toNat_inj c '"'
              have hslash : c.toNat = 92 ↔ c = '\\' := @Char.toNat_inj c '\\'
              rw [codes_cons, scanString]
              simp only [hquote, hslash]
              by_cases hescape : c = '\\'
              · subst hescape
                rw [scanString_backslash, if_neg (by decide), if_neg (by decide), if_pos rfl]
                rcases scanEscape_codes rest with ⟨hread, hscan⟩ | ⟨point, tail, hread, hle, hscan⟩
                · rw [hread, hscan]
                  rfl
                · rw [hread, hscan]
                  exact hnext point tail hle
              · rw [scanString_cons, stringStep_plain hescape, if_neg hescape]
                split
                · rfl
                · split
                  · rfl
                  · exact hnext c.toNat rest (Nat.le_refl _)

end Strings

end Icflow.Generate
