import Mathlib.Data.List.Basic

set_option autoImplicit false

/-!
# Words of the shell, written and read

`printf %q` writes a text so that the shell reads it back as one word: with backslashes
when all of it can be printed, and in `$'…'` otherwise.  `readWord` is the reader, for
words of quoted characters and of the parameters of a script; what else can stand in a
word is not read.  The two fit together (`readWord_quoteWord`).
-/

namespace Icflow.Foundation.Shell

/-! ## Writing -/

/-- Whether a character is printed as it is, between the characters around it. -/
structure Printing where
  printable : List Char → Char → List Char → Bool
  /-- control characters are not -/
  control : ∀ before c after, c.toNat < 32 ∨ c.toNat = 127 → printable before c after = false

/-- The characters with a meaning of their own outside of quotes. -/
def specials : List Char := " \t\n!\"$&'()*,;<>?[\\]^`\x7b|\x7d".toList

/-- What a `~` comes after outside of quotes: the start of the word, one of `:` and `=`, or
something else. -/
inductive Before where
  | start
  | mark
  | other
  deriving DecidableEq

/-- The place after a character. -/
def Before.after (c : Char) : Before := if c = ':' ∨ c = '=' then .mark else .other

/-- A `#` or a `~` with a meaning of its own at this place. -/
def Before.special (before : Before) (c : Char) : Bool :=
  (c = '#' && before == .start) || (c = '~' && before != .other)

/-- `sh_backslash_quote` -/
def backslashQuote (before : Before) : List Char → List Char
  | [] => []
  | c :: rest =>
      (if specials.contains c then ['\\', c]
        else if c = '\x01' ∨ c = '\x7f' then ['\x01', c]
        else if before.special c then ['\\', c]
        else [c]) ++ backslashQuote (Before.after c) rest

/-- The digit of a value below eight. -/
def octalDigit (value : Nat) : Char := Char.ofNat (48 + value)

/-- The characters that are written as a letter after a backslash. -/
def ansiLetters : List (Char × Char) :=
  [('\x1b', 'E'), ('\x07', 'a'), ('\x0b', 'v'), ('\x08', 'b'), ('\x0c', 'f'), ('\n', 'n'),
    ('\r', 'r'), ('\t', 't'), ('\\', '\\'), ('\'', '\'')]

/-- One character between `$'` and `'`. -/
def ansiPoint (locale : Printing) (before : List Char) (c : Char) (after : List Char) : List Char :=
  match ansiLetters.lookup c with
  | some letter => ['\\', letter]
  | none =>
      if locale.printable before c after then [c]
      else ['\\', octalDigit (c.toNat / 64 % 8), octalDigit (c.toNat / 8 % 8),
        octalDigit (c.toNat % 8)]

/-- The text between `$'` and `'`. -/
def ansiBody (locale : Printing) (before : List Char) : List Char → List Char
  | [] => []
  | c :: rest => ansiPoint locale before c rest ++ ansiBody locale (before ++ [c]) rest

/-- `ansic_shouldquote` -/
def ansicShouldquote (locale : Printing) (before : List Char) : List Char → Bool
  | [] => false
  | c :: rest => !locale.printable before c rest || ansicShouldquote locale (before ++ [c]) rest

/-- `printf %q` -/
def quoteWord (locale : Printing) (text : List Char) : List Char :=
  if text = [] then "''".toList
  else if ansicShouldquote locale [] text then "$'".toList ++ ansiBody locale [] text ++ ['\'']
  else backslashQuote .start text

/-! ## Reading -/

/-- A character of a word, or a parameter in double quotes. -/
inductive Piece where
  | char (c : Char)
  /-- `"$0"` -/
  | zero
  /-- `"$*"` -/
  | star
  /-- `"$@"` -/
  | each
  deriving DecidableEq

/-- A word before its parameters are replaced. -/
abbrev Word := List Piece

/-- Where the reader is in a word. -/
inductive Mode where
  | plain (before : Before)
  | escaped (before : Before)
  | single
  /-- after a `$` outside of quotes -/
  | dollar
  | ansi
  | ansiEscaped
  /-- after so many octal digits with this value -/
  | ansiOctal (digits value : Nat)
  | double
  | doubleEscaped
  /-- after a `$` in double quotes -/
  | doubleDollar

/-- Blanks and the end of the line come after a word. -/
def endsWord (c : Char) : Bool := c = ' ' || c = '\t' || c = '\n'

/-- The letters after a backslash in `$'…'` that stand for a character. -/
def ansiEscapes : List (Char × Char) :=
  [('E', '\x1b'), ('e', '\x1b'), ('a', '\x07'), ('v', '\x0b'), ('b', '\x08'), ('f', '\x0c'),
    ('n', '\n'), ('r', '\r'), ('t', '\t'), ('\\', '\\'), ('\'', '\''), ('"', '"'), ('?', '?')]

/-- The value of an octal digit. -/
def octalValue (c : Char) : Option Nat :=
  if 48 ≤ c.toNat ∧ c.toNat < 56 then some (c.toNat - 48) else none

/-- One more piece in front. -/
def push (piece : Piece) : Option (Word × List Char) → Option (Word × List Char)
  | none => none
  | some (word, rest) => some (piece :: word, rest)

/-- The rest of a word, and what comes after it. -/
def readWord : Mode → List Char → Option (Word × List Char)
  | .plain _, [] => some ([], [])
  | .plain before, c :: rest =>
      if endsWord c then some ([], c :: rest)
      else if c = '\\' then readWord (.escaped before) rest
      else if c = '\'' then readWord .single rest
      else if c = '"' then readWord .double rest
      else if c = '$' then readWord .dollar rest
      else if specials.contains c || before.special c then none
      else push (.char c) (readWord (.plain (Before.after c)) rest)
  | .escaped before, c :: rest =>
      -- a line goes on after a backslash
      if c = '\n' then readWord (.plain before) rest
      else push (.char c) (readWord (.plain .other) rest)
  | .single, c :: rest =>
      if c = '\'' then readWord (.plain .other) rest else push (.char c) (readWord .single rest)
  | .dollar, c :: rest => if c = '\'' then readWord .ansi rest else none
  | .ansi, c :: rest =>
      if c = '\'' then readWord (.plain .other) rest
      else if c = '\\' then readWord .ansiEscaped rest
      else push (.char c) (readWord .ansi rest)
  | .ansiEscaped, c :: rest =>
      match octalValue c with
      | some value => readWord (.ansiOctal 1 value) rest
      | none =>
          match ansiEscapes.lookup c with
          | some found => push (.char found) (readWord .ansi rest)
          | none => none
  | .ansiOctal digits value, c :: rest =>
      match octalValue c with
      | some digit =>
          if digits < 2 then readWord (.ansiOctal (digits + 1) (value * 8 + digit)) rest
          else pushByte (value * 8 + digit) (readWord .ansi rest)
      | none =>
          if c = '\'' then pushByte value (readWord (.plain .other) rest)
          else if c = '\\' then pushByte value (readWord .ansiEscaped rest)
          else pushByte value (push (.char c) (readWord .ansi rest))
  | .double, c :: rest =>
      if c = '"' then readWord (.plain .other) rest
      else if c = '\\' then readWord .doubleEscaped rest
      else if c = '$' then readWord .doubleDollar rest
      else if c.toNat = 96 then none
      else push (.char c) (readWord .double rest)
  | .doubleEscaped, c :: rest =>
      if c = '\n' then readWord .double rest
      else if c = '$' ∨ c.toNat = 96 ∨ c = '"' ∨ c = '\\' then push (.char c) (readWord .double rest)
      else push (.char '\\') (push (.char c) (readWord .double rest))
  | .doubleDollar, c :: rest =>
      if c = '0' then push .zero (readWord .double rest)
      else if c = '*' then push .star (readWord .double rest)
      else if c = '@' then push .each (readWord .double rest)
      else none
  | _, [] => none
where
  /-- A byte by its number; the shell's own strings end at a zero. -/
  pushByte (value : Nat) (result : Option (Word × List Char)) : Option (Word × List Char) :=
    if value % 256 = 0 then none else push (.char (Char.ofNat (value % 256))) result

/-! ## Backslashes -/

/-- What comes after a word. -/
def Ends (tail : List Char) : Prop := ∀ c, tail.head? = some c → endsWord c = true

/-- A text that a path or an argument can be: bytes without a zero. -/
def Bytes (text : List Char) : Prop := ∀ c ∈ text, 0 < c.toNat ∧ c.toNat < 256

theorem readWord_of_ends {tail : List Char} (h : Ends tail) (before : Before) :
    readWord (.plain before) tail = some ([], tail) := by
  cases tail with
  | nil => rfl
  | cons c rest => exact if_pos (h c rfl)

theorem readWord_backslash (before : Before) (c : Char) (rest : List Char) (hc : c ≠ '\n') :
    readWord (.plain before) ('\\' :: c :: rest) =
      push (.char c) (readWord (.plain .other) rest) := by
  have hends : endsWord '\\' = false := rfl
  rw [readWord, hends, if_neg Bool.false_ne_true, if_pos rfl, readWord, if_neg hc]

/-- A character that stands for itself. -/
theorem readWord_ordinary {before : Before} {c : Char} (rest : List Char) (hcontrol : 32 ≤ c.toNat)
    (hordinary : specials.contains c = false) (hplace : before.special c = false) :
    readWord (.plain before) (c :: rest) =
      push (.char c) (readWord (.plain (Before.after c)) rest) := by
  have hne : ∀ d ∈ [' ', '\\', '\'', '"', '$'], c ≠ d := by
    have hspecial : ∀ d ∈ [' ', '\\', '\'', '"', '$'], specials.contains d = true :=
      List.all_eq_true.mp (by decide)
    intro d hd heq
    rw [heq, hspecial d hd] at hordinary
    cases hordinary
  simp only [List.forall_mem_cons] at hne
  obtain ⟨hblank, hbackslash, hsingle, hdouble, hdollar, _⟩ := hne
  have htab : c ≠ '\t' := by
    rintro rfl
    exact absurd hcontrol (by decide)
  have hbreak : c ≠ '\n' := by
    rintro rfl
    exact absurd hcontrol (by decide)
  have hends : endsWord c = false := by simp [endsWord, hblank, htab, hbreak]
  rw [readWord, hends, hordinary, hplace, if_neg Bool.false_ne_true, if_neg hbackslash,
    if_neg hsingle, if_neg hdouble, if_neg hdollar]
  rfl

/-- Nothing that is quoted is a mark before a `~`. -/
theorem after_eq_other {before : Before} {c : Char}
    (h : specials.contains c = true ∨ before.special c = true) : Before.after c = .other := by
  apply if_neg
  rintro (rfl | rfl)
  · rcases h with h | h
    · exact absurd h (by decide)
    · cases before <;> cases h
  · rcases h with h | h
    · exact absurd h (by decide)
    · cases before <;> cases h

theorem readWord_backslashQuote {tail : List Char} (htail : Ends tail) {text : List Char}
    (htext : ∀ c ∈ text, 32 ≤ c.toNat ∧ c.toNat ≠ 127) (before : Before) :
    readWord (.plain before) (backslashQuote before text ++ tail) =
      some (text.map Piece.char, tail) := by
  induction text generalizing before with
  | nil => exact readWord_of_ends htail before
  | cons c rest ih =>
      obtain ⟨⟨hcontrol, hdelete⟩, hrest⟩ := List.forall_mem_cons.mp htext
      have hbreak : c ≠ '\n' := by
        rintro rfl
        exact absurd hcontrol (by decide)
      have hmarker : ¬ (c = '\x01' ∨ c = '\x7f') := by
        rintro (rfl | rfl)
        · exact absurd hcontrol (by decide)
        · exact hdelete rfl
      rw [backslashQuote, List.append_assoc]
      by_cases hspecial : specials.contains c = true
      · have hquoted : specials.contains c = true ∨ before.special c = true := Or.inl hspecial
        rw [if_pos hspecial, List.cons_append, List.singleton_append,
          readWord_backslash before c _ hbreak, ← after_eq_other hquoted, ih hrest]
        rfl
      · rw [if_neg hspecial, if_neg hmarker]
        by_cases hplace : before.special c = true
        · rw [if_pos hplace, List.cons_append, List.singleton_append,
            readWord_backslash before c _ hbreak, ← after_eq_other (Or.inr hplace), ih hrest]
          rfl
        · rw [if_neg hplace, List.singleton_append, readWord_ordinary _ hcontrol
            (eq_false_of_ne_true hspecial) (eq_false_of_ne_true hplace), ih hrest]
          rfl

/-! ## `$'…'` -/

theorem lookup_ansiEscapes {c letter : Char} (h : ansiLetters.lookup c = some letter) :
    octalValue letter = none ∧ ansiEscapes.lookup letter = some c := by
  have hall : ∀ pair ∈ ansiLetters,
      octalValue pair.2 = none ∧ ansiEscapes.lookup pair.2 = some pair.1 := by decide
  obtain ⟨before, after, heq, _⟩ := List.lookup_eq_some_iff.mp h
  exact hall (c, letter) (heq ▸ List.mem_append_cons_self)

theorem octalValue_octalDigit {value : Nat} (h : value < 8) :
    octalValue (octalDigit value) = some value := by
  have hall : ∀ value : Fin 8, octalValue (octalDigit value) = some value.val := by decide
  exact hall ⟨value, h⟩

/-- A byte by its three octal digits. -/
theorem readWord_octal {c : Char} (hpos : 0 < c.toNat) (hbyte : c.toNat < 256) (rest : List Char) :
    readWord .ansi ('\\' :: octalDigit (c.toNat / 64 % 8) :: octalDigit (c.toNat / 8 % 8) ::
        octalDigit (c.toNat % 8) :: rest) = push (.char c) (readWord .ansi rest) := by
  have hvalue : (c.toNat / 64 % 8 * 8 + c.toNat / 8 % 8) * 8 + c.toNat % 8 = c.toNat := by omega
  have hsmall : c.toNat % 256 = c.toNat := Nat.mod_eq_of_lt hbyte
  have hsingle : ('\\' : Char) ≠ '\'' := by decide
  rw [readWord, if_neg hsingle, if_pos rfl, readWord, octalValue_octalDigit (Nat.mod_lt _ (by omega))]
  dsimp only
  rw [readWord, octalValue_octalDigit (Nat.mod_lt _ (by omega))]
  dsimp only
  rw [if_pos (by omega), readWord, octalValue_octalDigit (Nat.mod_lt _ (by omega))]
  dsimp only
  rw [if_neg (by omega), hvalue, readWord.pushByte, hsmall, if_neg (by omega), Char.ofNat_toNat]

/-- A character between `$'` and `'` is read back. -/
theorem readWord_ansiPoint (locale : Printing) (before : List Char) {c : Char} (after : List Char)
    (hpos : 0 < c.toNat) (hbyte : c.toNat < 256) (rest : List Char) :
    readWord .ansi (ansiPoint locale before c after ++ rest) =
      push (.char c) (readWord .ansi rest) := by
  unfold ansiPoint
  cases hletter : ansiLetters.lookup c with
  | some letter =>
      obtain ⟨hoctal, hescape⟩ := lookup_ansiEscapes hletter
      have hsingle : ('\\' : Char) ≠ '\'' := by decide
      dsimp only
      rw [List.cons_append, List.singleton_append, readWord, if_neg hsingle, if_pos rfl, readWord,
        hoctal]
      dsimp only
      rw [hescape]
  | none =>
      dsimp only
      split
      · have hsingle : c ≠ '\'' := by
          rintro rfl
          cases hletter
        have hbackslash : c ≠ '\\' := by
          rintro rfl
          cases hletter
        rw [List.singleton_append, readWord, if_neg hsingle, if_neg hbackslash]
      · exact readWord_octal hpos hbyte rest

theorem readWord_ansiBody (locale : Printing) {text : List Char} (htext : Bytes text)
    (before rest : List Char) :
    readWord .ansi (ansiBody locale before text ++ '\'' :: rest) =
      (readWord (.plain .other) rest).map fun result =>
        (text.map Piece.char ++ result.1, result.2) := by
  induction text generalizing before with
  | nil =>
      rw [ansiBody, List.nil_append, readWord, if_pos rfl]
      simp
  | cons c text ih =>
      obtain ⟨⟨hpos, hbyte⟩, hrest⟩ := List.forall_mem_cons.mp htext
      rw [ansiBody, List.append_assoc, readWord_ansiPoint locale before text hpos hbyte, ih hrest]
      cases readWord (.plain .other) rest with
      | none => rfl
      | some result => rfl

/-! ## Both -/

theorem control_of_not_shouldquote {locale : Printing} {before text : List Char}
    (h : ansicShouldquote locale before text = false) :
    ∀ c ∈ text, 32 ≤ c.toNat ∧ c.toNat ≠ 127 := by
  induction text generalizing before with
  | nil => exact List.forall_mem_nil _
  | cons c text ih =>
      rw [ansicShouldquote, Bool.or_eq_false_iff] at h
      refine List.forall_mem_cons.mpr ⟨?_, ih h.2⟩
      by_contra hcontrol
      have hprinted := locale.control before c text (by omega)
      rw [hprinted] at h
      cases h.1

/-- A word of `printf %q` is read back as the text it was written for. -/
theorem readWord_quoteWord (locale : Printing) {text : List Char} (htext : Bytes text)
    {tail : List Char} (htail : Ends tail) :
    readWord (.plain .start) (quoteWord locale text ++ tail) =
      some (text.map Piece.char, tail) := by
  unfold quoteWord
  split
  · next hempty =>
    subst hempty
    exact readWord_of_ends htail .other
  · split
    · rw [List.append_assoc, List.append_assoc, List.singleton_append]
      change readWord .ansi (ansiBody locale [] text ++ '\'' :: tail) = _
      rw [readWord_ansiBody locale htext, readWord_of_ends htail, Option.map_some, List.append_nil]
    · next hquote =>
      exact readWord_backslashQuote htail
        (control_of_not_shouldquote (eq_false_of_ne_true hquote)) .start

end Icflow.Foundation.Shell
