import Icflow.Foundation.Json.Parser
import Icflow.Foundation.Utf8

set_option autoImplicit false

/-!
# JSON: the pretty printer, and the round trip

`dump` lays a value out with one array element or object member per line, the
layout of a serializer that is given an indentation width.  `parse_dump` says that
any ASCII-lawful dialect reads the value back and stops right behind it, whatever
follows.  Numbers are left out: a bare number has no end of its own.
-/

namespace Icflow.Foundation.Json

variable {υ : Type}

/-! ## Printing -/

/-- An indentation. -/
def spaces (width : Nat) : List Char := List.replicate width ' '

/-- One character of a string literal.  Control characters are escaped, everything
from the space on stands for itself except the quote and the backslash. -/
def escapeChar (c : Char) : List Char :=
  if c = '"' then ['\\', '"']
  else if c = '\\' then ['\\', '\\']
  else if c = '\x08' then ['\\', 'b']
  else if c = '\t' then ['\\', 't']
  else if c = '\n' then ['\\', 'n']
  else if c = '\x0C' then ['\\', 'f']
  else if c = '\r' then ['\\', 'r']
  else if c.toNat < 0x20 then
    ['\\', 'u', '0', '0', Nat.digitChar (c.toNat / 16), Nat.digitChar (c.toNat % 16)]
  else [c]

/-- A string literal with its quotes. -/
def dumpString (value : List Char) : List Char :=
  '"' :: (value.flatMap escapeChar ++ ['"'])

mutual

/-- Print a value; `indent` is the indentation of the line it starts on. -/
def dump (width indent : Nat) : Json Char → List Char
  | .null => ['n', 'u', 'l', 'l']
  | .bool true => ['t', 'r', 'u', 'e']
  | .bool false => ['f', 'a', 'l', 's', 'e']
  | .num lexeme => lexeme
  | .str value => dumpString value
  | .arr elements =>
      if elements.isEmpty then ['[', ']']
      else
        '[' :: '\n' :: (dumpElements width (indent + width) elements ++
          '\n' :: (spaces indent ++ [']']))
  | .obj members =>
      if members.isEmpty then ['{', '}']
      else
        '{' :: '\n' :: (dumpMembers width (indent + width) members ++
          '\n' :: (spaces indent ++ ['}']))

/-- The lines of an array, all but the last with a comma. -/
def dumpElements (width indent : Nat) : List (Json Char) → List Char
  | [] => []
  | [value] => spaces indent ++ dump width indent value
  | value :: next :: rest =>
      spaces indent ++ (dump width indent value ++
        ',' :: '\n' :: dumpElements width indent (next :: rest))

/-- The lines of an object, all but the last with a comma. -/
def dumpMembers (width indent : Nat) : List (List Char × Json Char) → List Char
  | [] => []
  | [(name, value)] =>
      spaces indent ++ (dumpString name ++ ':' :: ' ' :: dump width indent value)
  | (name, value) :: next :: rest =>
      spaces indent ++ (dumpString name ++ ':' :: ' ' :: (dump width indent value ++
        ',' :: '\n' :: dumpMembers width indent (next :: rest)))

end

/-! ## What the round trip asks for -/

/-- The dialect reads ASCII the way every JSON decoder does. -/
structure Dialect.AsciiLawful (d : Dialect υ) : Prop where
  continuation : ∀ c : Char, 0x20 ≤ c.toNat → c.toNat < 0x80 → d.continuation c = some []
  emit : ∀ c : Char, c.toNat < 0x80 → d.emit c.toNat = [d.raw c]

mutual

/-- A value whose strings are ASCII and that holds no number. -/
def Plain : Json Char → Prop
  | .null | .bool _ => True
  | .num _ => False
  | .str value => IsAscii value
  | .arr elements => PlainElements elements
  | .obj members => PlainMembers members

/-- `Plain` on the elements of an array. -/
def PlainElements : List (Json Char) → Prop
  | [] => True
  | value :: rest => Plain value ∧ PlainElements rest

/-- `Plain` on the members of an object. -/
def PlainMembers : List (List Char × Json Char) → Prop
  | [] => True
  | (name, value) :: rest => IsAscii name ∧ Plain value ∧ PlainMembers rest

end

/-! ## The characters of the printed text -/

/-- The characters that are printed around the strings and the numbers. -/
def punctuation : List Char :=
  ['"', ' ', '\n', ',', ':', '[', ']', '{', '}', 'a', 'e', 'f', 'l', 'n', 'r', 's', 't', 'u']

theorem forall_punctuation {p : Char → Prop} [DecidablePred p]
    (h : punctuation.all (fun c => decide (p c)) = true) : ∀ c ∈ punctuation, p c := by
  intro c hc
  exact of_decide_eq_true (List.all_eq_true.mp h c hc)

mutual

/-- The characters that the strings and the numbers of a value are printed with. -/
def leafChars : Json Char → List Char
  | .null | .bool _ => []
  | .num lexeme => lexeme
  | .str value => value.flatMap escapeChar
  | .arr elements => leafCharsElements elements
  | .obj members => leafCharsMembers members

/-- `leafChars` of the elements of an array. -/
def leafCharsElements : List (Json Char) → List Char
  | [] => []
  | value :: rest => leafChars value ++ leafCharsElements rest

/-- `leafChars` of the members of an object. -/
def leafCharsMembers : List (List Char × Json Char) → List Char
  | [] => []
  | (name, value) :: rest => name.flatMap escapeChar ++ (leafChars value ++ leafCharsMembers rest)

end

theorem forall_spaces {p : Char → Prop} (hp : ∀ c ∈ punctuation, p c) (width : Nat) :
    ∀ c ∈ spaces width, p c := by
  intro c hc
  rw [List.eq_of_mem_replicate hc]
  exact hp ' ' (by decide)

theorem forall_dumpString {p : Char → Prop} (hp : ∀ c ∈ punctuation, p c) {value : List Char}
    (h : ∀ c ∈ value.flatMap escapeChar, p c) : ∀ c ∈ dumpString value, p c := by
  have hquote : p '"' := hp '"' (by decide)
  rw [dumpString, List.forall_mem_cons, List.forall_mem_append, List.forall_mem_singleton]
  exact ⟨hquote, h, hquote⟩

mutual

/-- What holds of the punctuation and of the leaves holds of the whole text. -/
theorem forall_dump {p : Char → Prop} (hp : ∀ c ∈ punctuation, p c) (width : Nat) :
    (value : Json Char) → (∀ c ∈ leafChars value, p c) →
      ∀ indent : Nat, ∀ c ∈ dump width indent value, p c
  | .null, _, _ => by
      unfold dump
      exact fun c hc => hp c ((by decide : ['n', 'u', 'l', 'l'] ⊆ punctuation) hc)
  | .bool true, _, _ => by
      unfold dump
      exact fun c hc => hp c ((by decide : ['t', 'r', 'u', 'e'] ⊆ punctuation) hc)
  | .bool false, _, _ => by
      unfold dump
      exact fun c hc => hp c ((by decide : ['f', 'a', 'l', 's', 'e'] ⊆ punctuation) hc)
  | .num _, h, _ => h
  | .str _, h, _ => by
      unfold dump
      exact forall_dumpString hp h
  | .arr elements, h, indent => by
      have hopen : p '[' := hp '[' (by decide)
      have hclose : p ']' := hp ']' (by decide)
      have hline : p '\n' := hp '\n' (by decide)
      unfold dump
      split
      · simp [hopen, hclose]
      · have helements := forall_dumpElements hp width elements h (indent + width)
        have hindent := forall_spaces hp indent
        simp only [List.forall_mem_cons, List.forall_mem_append]
        exact ⟨hopen, hline, helements, hline, hindent, hclose, List.forall_mem_nil p⟩
  | .obj members, h, indent => by
      have hopen : p '{' := hp '{' (by decide)
      have hclose : p '}' := hp '}' (by decide)
      have hline : p '\n' := hp '\n' (by decide)
      unfold dump
      split
      · simp [hopen, hclose]
      · have hmembers := forall_dumpMembers hp width members h (indent + width)
        have hindent := forall_spaces hp indent
        simp only [List.forall_mem_cons, List.forall_mem_append]
        exact ⟨hopen, hline, hmembers, hline, hindent, hclose, List.forall_mem_nil p⟩

theorem forall_dumpElements {p : Char → Prop} (hp : ∀ c ∈ punctuation, p c) (width : Nat) :
    (elements : List (Json Char)) → (∀ c ∈ leafCharsElements elements, p c) →
      ∀ indent : Nat, ∀ c ∈ dumpElements width indent elements, p c
  | [], _, _ => by simp [dumpElements]
  | [value], h, indent => by
      rw [leafCharsElements, List.forall_mem_append] at h
      rw [dumpElements, List.forall_mem_append]
      exact ⟨forall_spaces hp indent, forall_dump hp width value h.1 indent⟩
  | value :: next :: rest, h, indent => by
      rw [leafCharsElements, List.forall_mem_append] at h
      have hhead := forall_dump hp width value h.1 indent
      have hrest := forall_dumpElements hp width (next :: rest) h.2 indent
      have hcomma : p ',' := hp ',' (by decide)
      have hline : p '\n' := hp '\n' (by decide)
      simp only [dumpElements, List.forall_mem_cons, List.forall_mem_append]
      exact ⟨forall_spaces hp indent, hhead, hcomma, hline, hrest⟩

theorem forall_dumpMembers {p : Char → Prop} (hp : ∀ c ∈ punctuation, p c) (width : Nat) :
    (members : List (List Char × Json Char)) → (∀ c ∈ leafCharsMembers members, p c) →
      ∀ indent : Nat, ∀ c ∈ dumpMembers width indent members, p c
  | [], _, _ => by simp [dumpMembers]
  | [(name, value)], h, indent => by
      rw [leafCharsMembers, List.forall_mem_append, List.forall_mem_append] at h
      have hname := forall_dumpString hp h.1
      have hhead := forall_dump hp width value h.2.1 indent
      have hcolon : p ':' := hp ':' (by decide)
      have hblank : p ' ' := hp ' ' (by decide)
      simp only [dumpMembers, List.forall_mem_cons, List.forall_mem_append]
      exact ⟨forall_spaces hp indent, hname, hcolon, hblank, hhead⟩
  | (name, value) :: next :: rest, h, indent => by
      rw [leafCharsMembers, List.forall_mem_append, List.forall_mem_append] at h
      have hname := forall_dumpString hp h.1
      have hhead := forall_dump hp width value h.2.1 indent
      have hrest := forall_dumpMembers hp width (next :: rest) h.2.2 indent
      have hcolon : p ':' := hp ':' (by decide)
      have hblank : p ' ' := hp ' ' (by decide)
      have hcomma : p ',' := hp ',' (by decide)
      have hline : p '\n' := hp '\n' (by decide)
      simp only [dumpMembers, List.forall_mem_cons, List.forall_mem_append]
      exact ⟨forall_spaces hp indent, hname, hcolon, hblank, hhead, hcomma, hline, hrest⟩

end

/-! ## The printed text is ASCII -/

theorem isAscii_escapeChar {c : Char} (hc : c.toNat < 0x80) : IsAscii (escapeChar c) := by
  have hdigits : ∀ value < 16, (Nat.digitChar value).toNat < 0x80 := by decide
  have hhigh : (Nat.digitChar (c.toNat / 16)).toNat < 0x80 := hdigits _ (by omega)
  have hlow : (Nat.digitChar (c.toNat % 16)).toNat < 0x80 := hdigits _ (by omega)
  unfold escapeChar
  repeat' split
  all_goals simp [IsAscii, hhigh, hlow, hc]

theorem isAscii_flatMap_escapeChar {value : List Char} (h : IsAscii value) :
    IsAscii (value.flatMap escapeChar) := by
  intro c hc
  obtain ⟨source, hsource, hc⟩ := List.mem_flatMap.mp hc
  exact isAscii_escapeChar (h source hsource) c hc

mutual

/-- The leaves of a plain value are ASCII. -/
theorem isAscii_leafChars : (value : Json Char) → Plain value → IsAscii (leafChars value)
  | .null, _ => isAscii_nil
  | .bool _, _ => isAscii_nil
  | .num _, hvalue => hvalue.elim
  | .str _, hvalue => isAscii_flatMap_escapeChar hvalue
  | .arr elements, hvalue => isAscii_leafCharsElements elements hvalue
  | .obj members, hvalue => isAscii_leafCharsMembers members hvalue

theorem isAscii_leafCharsElements :
    (elements : List (Json Char)) → PlainElements elements → IsAscii (leafCharsElements elements)
  | [], _ => isAscii_nil
  | value :: rest, hvalue =>
      isAscii_append.mpr
        ⟨isAscii_leafChars value hvalue.1, isAscii_leafCharsElements rest hvalue.2⟩

theorem isAscii_leafCharsMembers :
    (members : List (List Char × Json Char)) → PlainMembers members →
      IsAscii (leafCharsMembers members)
  | [], _ => isAscii_nil
  | (_, value) :: rest, hvalue =>
      isAscii_append.mpr ⟨isAscii_flatMap_escapeChar hvalue.1,
        isAscii_append.mpr
          ⟨isAscii_leafChars value hvalue.2.1, isAscii_leafCharsMembers rest hvalue.2.2⟩⟩

end

theorem isAscii_dump (width : Nat) (value : Json Char) (hvalue : Plain value) (indent : Nat) :
    IsAscii (dump width indent value) :=
  forall_dump (forall_punctuation (by decide)) width value (isAscii_leafChars value hvalue) indent

/-! ## Strings -/

/-- One printed character is read back as one unit. -/
theorem scanString_escapeChar {d : Dialect υ} (hd : d.AsciiLawful) {c : Char}
    (hc : c.toNat < 0x80) {text rest : List Char} {more : List υ}
    (h : scanString d (.plain none) text = some (more, rest)) :
    scanString d (.plain none) (escapeChar c ++ text) = some (d.raw c :: more, rest) := by
  -- a one-letter escape goes through `simpleEscape` and the dialect's `emit`
  have hsimple : ∀ letter : Char, letter ≠ 'u' → simpleEscape letter = some c.toNat →
      scanString d (.plain none) ('\\' :: letter :: text) = some (d.raw c :: more, rest) := by
    intro letter hu hletter
    simp [scanString, stringStep, Dialect.flush, hu, hletter, hd.emit c hc, h]
  unfold escapeChar
  split
  · rename_i hq; subst hq; exact hsimple _ (by decide) (by decide)
  split
  · rename_i hq; subst hq; exact hsimple _ (by decide) (by decide)
  split
  · rename_i hq; subst hq; exact hsimple _ (by decide) (by decide)
  split
  · rename_i hq; subst hq; exact hsimple _ (by decide) (by decide)
  split
  · rename_i hq; subst hq; exact hsimple _ (by decide) (by decide)
  split
  · rename_i hq; subst hq; exact hsimple _ (by decide) (by decide)
  split
  · rename_i hq; subst hq; exact hsimple _ (by decide) (by decide)
  split
  · -- the remaining control characters are spelled with four hexadecimal digits
    rename_i hcontrol
    have hhigh : digitIn 16 (Nat.digitChar (c.toNat / 16)) = some (c.toNat / 16) :=
      digitIn_digitChar (by omega) (by omega)
    have hlow : digitIn 16 (Nat.digitChar (c.toNat % 16)) = some (c.toNat % 16) :=
      digitIn_digitChar (by omega) (by omega)
    have hzero : digitIn 16 '0' = some 0 := by decide
    have hunit : c.toNat / 16 * 16 + c.toNat % 16 = c.toNat := Nat.div_add_mod' _ _
    have hhs : isHighSurrogate c.toNat = false := by
      simp only [isHighSurrogate, Bool.and_eq_false_iff, decide_eq_false_iff_not]
      omega
    have hls : isLowSurrogate c.toNat = false := by
      simp only [isLowSurrogate, Bool.and_eq_false_iff, decide_eq_false_iff_not]
      omega
    simp [scanString, stringStep, hzero, hhigh, hlow, hunit, unicodeEscape,
      freshEscape, hhs, hls, hd.emit c hc, h]
  · rename_i hquote hslash _ _ _ _ _ hcontrol
    have hplain := hd.continuation c (by omega) hc
    simp [scanString, stringStep, Dialect.flush, hquote, hslash, hcontrol, hplain, afterRaw, h]

theorem scanString_flatMap {d : Dialect υ} (hd : d.AsciiLawful) (rest : List Char) :
    ∀ value : List Char, IsAscii value →
      scanString d (.plain none) (value.flatMap escapeChar ++ '"' :: rest) =
        some (value.map d.raw, rest) := by
  intro value
  induction value with
  | nil => intro _; simp [scanString, stringStep, Dialect.flush]
  | cons c value ih =>
      intro hvalue
      rw [List.flatMap_cons, List.append_assoc, List.map_cons]
      exact scanString_escapeChar hd (hvalue c List.mem_cons_self)
        (ih fun c' hc' => hvalue c' (List.mem_cons_of_mem c hc'))

/-- A printed string is one string token. -/
theorem stringToken_dumpString {d : Dialect υ} (hd : d.AsciiLawful) {value : List Char}
    (hvalue : IsAscii value) (rest : List Char) :
    tokenAt d '"' (value.flatMap escapeChar ++ ['"'] ++ rest) = (.str (value.map d.raw), rest) := by
  have htext : value.flatMap escapeChar ++ ['"'] ++ rest =
      value.flatMap escapeChar ++ '"' :: rest := by simp
  simp [tokenAt, stringToken, htext, scanString_flatMap hd rest value hvalue]

/-! ## The round trip -/

/-- A state in which a value is expected, with the frames it will be handed to. -/
def Awaits (state : ParserState υ) (stack : List (Frame υ)) : Prop :=
  ∀ token : Token υ, token ≠ .endArray → parserStep state token = valueToken stack token

theorem awaits_value (stack : List (Frame υ)) : Awaits (.value stack) stack :=
  fun _ _ => rfl

theorem awaits_firstElement (stack : List (Frame υ)) :
    Awaits (.firstElement stack) (.array [] :: stack) :=
  fun _ h => parserStep_firstElement stack h

/-- A state in which a member is expected, with the members read before it. -/
def AwaitsMember (state : ParserState υ) (done : List (List υ × Json υ))
    (stack : List (Frame υ)) : Prop :=
  ∀ name : List υ, parserStep state (.str name) = .next (.colon done name stack)

theorem spaces_whitespace (width : Nat) : ∀ c ∈ spaces width, isWhitespace c = true := by
  intro c hc
  rw [List.eq_of_mem_replicate hc]
  rfl

theorem run_spaces (d : Dialect υ) (state : ParserState υ) (width : Nat) (text : List Char) :
    run d state (spaces width ++ text) = run d state text :=
  run_whitespace d state (spaces_whitespace width) text

theorem run_newline (d : Dialect υ) (state : ParserState υ) (text : List Char) :
    run d state ('\n' :: text) = run d state text := by
  have hblank : ∀ c ∈ ['\n'], isWhitespace c = true := by
    intro c hc
    rw [List.mem_singleton.mp hc]
    rfl
  exact run_whitespace d state hblank text

/-- A name, its colon and the blank behind it. -/
theorem run_name {d : Dialect υ} (hd : d.AsciiLawful) {name : List Char} (hname : IsAscii name)
    {state : ParserState υ} {done : List (List υ × Json υ)} {stack : List (Frame υ)}
    (hstate : AwaitsMember state done stack) (text : List Char) :
    run d state (dumpString name ++ ':' :: ' ' :: text) =
      run d (.value (.object done (name.map d.raw) :: stack)) text := by
  have hspace : run d (.value (.object done (name.map d.raw) :: stack)) (' ' :: text) =
      run d (.value (.object done (name.map d.raw) :: stack)) text :=
    run_spaces d _ 1 text
  have hcolon : tokenAt d ':' (' ' :: text) = (.nameSeparator, ' ' :: text) := rfl
  rw [dumpString, List.cons_append, run_cons d _ (by decide),
    stringToken_dumpString hd hname, hstate, resume_next, run_cons d _ (by decide), hcolon]
  simp only [parserStep, resume_next]
  exact hspace

mutual

/-- The decoder reads a printed value wherever a value is expected and goes on
behind it.  The three statements follow the three functions of the printer. -/
theorem run_dump {d : Dialect υ} (hd : d.AsciiLawful) (width : Nat) :
    (value : Json Char) → Plain value →
    ∀ (indent : Nat) (state : ParserState υ) (stack : List (Frame υ)) (rest : List Char),
      Awaits state stack →
      run d state (dump width indent value ++ rest) =
        resume d (complete stack (value.map d.raw)) rest
  | .null, _, indent, state, stack, rest, hstate => by
      have htoken : tokenAt d 'n' (['u', 'l', 'l'] ++ rest) = (.literalNull, rest) := by
        simp [tokenAt, literalToken, scanLiteral]
      rw [dump, List.cons_append, run_cons d _ (by decide), htoken, hstate _ (by simp)]
      rfl
  | .bool true, _, indent, state, stack, rest, hstate => by
      have htoken : tokenAt d 't' (['r', 'u', 'e'] ++ rest) = (.literalTrue, rest) := by
        simp [tokenAt, literalToken, scanLiteral]
      rw [dump, List.cons_append, run_cons d _ (by decide), htoken, hstate _ (by simp)]
      rfl
  | .bool false, _, indent, state, stack, rest, hstate => by
      have htoken : tokenAt d 'f' (['a', 'l', 's', 'e'] ++ rest) = (.literalFalse, rest) := by
        simp [tokenAt, literalToken, scanLiteral]
      rw [dump, List.cons_append, run_cons d _ (by decide), htoken, hstate _ (by simp)]
      rfl
  | .num lexeme, hvalue, _, _, _, _, _ => hvalue.elim
  | .str value, hvalue, indent, state, stack, rest, hstate => by
      rw [dump, dumpString, List.cons_append, run_cons d _ (by decide),
        stringToken_dumpString hd hvalue, hstate _ (by simp)]
      rfl
  | .arr elements, hvalue, indent, state, stack, rest, hstate => by
      unfold dump
      split
      · rename_i hempty
        have helements : elements = [] := List.isEmpty_iff.mp hempty
        have hopen : tokenAt d '[' (']' :: rest) = (.beginArray, ']' :: rest) := rfl
        have hclose : tokenAt d ']' rest = (.endArray, rest) := rfl
        rw [helements, List.cons_append, List.cons_append, List.nil_append,
          run_cons d _ (by decide), hopen, hstate _ (by simp)]
        simp only [valueToken, resume_next]
        rw [run_cons d _ (by decide), hclose]
        simp [parserStep, map]
      · rename_i hempty
        have hne : elements ≠ [] := fun h => hempty (List.isEmpty_iff.mpr h)
        rw [List.cons_append, run_cons d _ (by decide)]
        simp only [tokenAt]
        rw [hstate _ (by simp)]
        simp only [valueToken, resume_next, List.cons_append, List.append_assoc]
        rw [run_newline]
        have helements := run_dumpElements hd width elements hvalue hne (indent + width)
          (.firstElement stack) [] stack indent rest (awaits_firstElement stack)
        simpa [map] using helements
  | .obj members, hvalue, indent, state, stack, rest, hstate => by
      unfold dump
      split
      · rename_i hempty
        have hmembers : members = [] := List.isEmpty_iff.mp hempty
        have hopen : tokenAt d '{' ('}' :: rest) = (.beginObject, '}' :: rest) := rfl
        have hclose : tokenAt d '}' rest = (.endObject, rest) := rfl
        rw [hmembers, List.cons_append, List.cons_append, List.nil_append,
          run_cons d _ (by decide), hopen, hstate _ (by simp)]
        simp only [valueToken, resume_next]
        rw [run_cons d _ (by decide), hclose]
        simp [parserStep, map]
      · rename_i hempty
        have hne : members ≠ [] := fun h => hempty (List.isEmpty_iff.mpr h)
        rw [List.cons_append, run_cons d _ (by decide)]
        simp only [tokenAt]
        rw [hstate _ (by simp)]
        simp only [valueToken, resume_next, List.cons_append, List.append_assoc]
        rw [run_newline]
        have hmembers := run_dumpMembers hd width members hvalue hne (indent + width)
          (.firstName stack) [] stack indent rest (fun _ => rfl)
        simpa [map] using hmembers

theorem run_dumpElements {d : Dialect υ} (hd : d.AsciiLawful) (width : Nat) :
    (elements : List (Json Char)) → PlainElements elements → elements ≠ [] →
    ∀ (indent : Nat) (state : ParserState υ) (done : List (Json υ)) (stack : List (Frame υ))
      (closing : Nat) (rest : List Char),
      Awaits state (.array done :: stack) →
      run d state (dumpElements width indent elements ++
          '\n' :: (spaces closing ++ ']' :: rest)) =
        resume d (complete stack (.arr (done ++ elements.map (map d.raw)))) rest
  | [], _, hne, _, _, _, _, _, _, _ => absurd rfl hne
  | [value], hvalue, _, indent, state, done, stack, closing, rest, hstate => by
      have hclose : tokenAt d ']' rest = (.endArray, rest) := rfl
      rw [dumpElements, List.append_assoc, run_spaces,
        run_dump hd width value hvalue.1 indent state _ _ hstate]
      simp only [complete_array, resume_next]
      rw [run_newline, run_spaces, run_cons d _ (by decide), hclose]
      rfl
  | value :: next :: more, hvalue, _, indent, state, done, stack, closing, rest, hstate => by
      rw [dumpElements, List.append_assoc, run_spaces, List.append_assoc,
        run_dump hd width value hvalue.1 indent state _ _ hstate]
      simp only [complete_array, resume_next, List.cons_append]
      rw [run_cons d _ (by decide)]
      simp only [tokenAt, parserStep, resume_next]
      rw [run_newline]
      have hmore := run_dumpElements hd width (next :: more) hvalue.2 (List.cons_ne_nil _ _)
        indent (.value (.array (done ++ [value.map d.raw]) :: stack)) (done ++ [value.map d.raw])
        stack closing rest (awaits_value _)
      simpa using hmore

theorem run_dumpMembers {d : Dialect υ} (hd : d.AsciiLawful) (width : Nat) :
    (members : List (List Char × Json Char)) → PlainMembers members → members ≠ [] →
    ∀ (indent : Nat) (state : ParserState υ) (done : List (List υ × Json υ))
      (stack : List (Frame υ)) (closing : Nat) (rest : List Char),
      AwaitsMember state done stack →
      run d state (dumpMembers width indent members ++
          '\n' :: (spaces closing ++ '}' :: rest)) =
        resume d
          (complete stack (.obj (done ++ members.map fun m => (m.1.map d.raw, map d.raw m.2))))
          rest
  | [], _, hne, _, _, _, _, _, _, _ => absurd rfl hne
  | [(name, value)], hvalue, _, indent, state, done, stack, closing, rest, hstate => by
      have hclose : tokenAt d '}' rest = (.endObject, rest) := rfl
      rw [dumpMembers, List.append_assoc, run_spaces, List.append_assoc, List.cons_append,
        List.cons_append, run_name hd hvalue.1 hstate,
        run_dump hd width value hvalue.2.1 indent _ _ _ (awaits_value _)]
      simp only [complete_object, resume_next]
      rw [run_newline, run_spaces, run_cons d _ (by decide), hclose]
      rfl
  | (name, value) :: next :: more, hvalue, _, indent, state, done, stack, closing, rest,
      hstate => by
      rw [dumpMembers, List.append_assoc, run_spaces, List.append_assoc, List.cons_append,
        List.cons_append, run_name hd hvalue.1 hstate, List.append_assoc,
        run_dump hd width value hvalue.2.1 indent _ _ _ (awaits_value _)]
      simp only [complete_object, resume_next, List.cons_append]
      rw [run_cons d _ (by decide)]
      simp only [tokenAt, parserStep, resume_next]
      rw [run_newline]
      have hmore := run_dumpMembers hd width (next :: more) hvalue.2.2 (List.cons_ne_nil _ _)
        indent (.name (done ++ [(name.map d.raw, value.map d.raw)]) stack)
        (done ++ [(name.map d.raw, value.map d.raw)]) stack closing rest (fun _ => rfl)
      simpa using hmore

end

/-- The round trip: a printed value is read back, and the decoder stops right
behind it. -/
theorem parse_dump {d : Dialect υ} (hd : d.AsciiLawful) (width : Nat) {value : Json Char}
    (hvalue : Plain value) (rest : List Char) :
    parse d (dump width 0 value ++ rest) = some (value.map d.raw, rest) :=
  run_dump hd width value hvalue 0 _ [] rest (awaits_value [])

end Icflow.Foundation.Json
