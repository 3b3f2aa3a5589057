import Icflow.Foundation.ShellWords

set_option autoImplicit false

/-!
# Scripts of simple commands

A script is read line by line into simple commands, and run with its own name and its
arguments.  The commands are `printf` with its output appended to a file, and `exec` of
an absolute path, which is the last; a script with anything else in it is not read or not
run.
-/

namespace Icflow.Foundation.Shell

/-! ## Reading -/

/-- A line: the words of its command, and the file that its output is appended to. -/
structure Line where
  words : List Word
  appendTo : Option Word
  deriving DecidableEq

/-- A blank between two words. -/
def isBlank (c : Char) : Bool := c = ' ' || c = '\t'

/-- One word more in front. -/
def addWord (word : Word) (result : Option (Line × List Char)) : Option (Line × List Char) :=
  result.map fun result => ({ result.1 with words := word :: result.1.words }, result.2)

/-- The file that the output is appended to. -/
def addTarget (word : Word) (result : Option (Line × List Char)) : Option (Line × List Char) :=
  result.map fun result => ({ result.1 with appendTo := some word }, result.2)

/-- One line, and what comes after it. -/
def readLine : Nat → List Char → Option (Line × List Char)
  | 0, _ => none
  | fuel + 1, text =>
      match text.dropWhile isBlank with
      | [] => some (⟨[], none⟩, [])
      | '\n' :: rest => some (⟨[], none⟩, rest)
      | '#' :: rest => some (⟨[], none⟩, (rest.dropWhile (· != '\n')).tail)
      | '>' :: '>' :: rest =>
          match readWord (.plain .start) (rest.dropWhile isBlank) with
          | none => none
          | some (word, rest) => addTarget word (readLine fuel rest)
      | first :: rest =>
          match readWord (.plain .start) (first :: rest) with
          | none => none
          | some (word, rest) => addWord word (readLine fuel rest)

/-- All lines. -/
def readLines : Nat → List Char → Option (List Line)
  | _, [] => some []
  | 0, _ :: _ => none
  | fuel + 1, text =>
      match readLine (fuel + 1) text with
      | none => none
      | some (line, rest) => (readLines fuel rest).map (line :: ·)

/-- The commands of a script, without its empty lines and its comments. -/
def readScript (text : List Char) : Option (List Line) :=
  (readLines text.length text).map fun lines => lines.filter fun line => line.words != []

/-! ## Running -/

/-- How a script is called. -/
structure Invocation where
  zero : List Char
  arguments : List (List Char)

/-- What a script does: what it appends to files, and the program that it becomes. -/
structure Effects where
  appended : List (List Char × List Char)
  replaced : Option (List (List Char))
  deriving DecidableEq

section Running

variable (invocation : Invocation)

/-- `"$*"` -/
def Invocation.joined : List Char := List.intercalate [' '] invocation.arguments

/-- What a piece of a word is replaced by. -/
def expandPiece : Piece → Option (List Char)
  | .char c => some [c]
  | .zero => some invocation.zero
  | .star => some invocation.joined
  | .each => none

/-- The words that a word is replaced by. -/
def expandWord (word : Word) : Option (List (List Char)) :=
  if word = [.each] then some invocation.arguments
  else (word.mapM (expandPiece invocation)).map fun texts => [texts.flatten]

/-- The words of a command. -/
def expandWords (words : List Word) : Option (List (List Char)) :=
  (words.mapM (expandWord invocation)).map List.flatten

/-- What `printf` prints, when the format takes all arguments at once. -/
def printfText : List Char → List (List Char) → Option (List Char)
  | [], [] => some []
  | [], _ :: _ => none
  | '%' :: 's' :: format, arguments =>
      (printfText format arguments.tail).map (arguments.headD [] ++ ·)
  | '\\' :: 't' :: format, arguments => (printfText format arguments).map ('\t' :: ·)
  | '\\' :: 'n' :: format, arguments => (printfText format arguments).map ('\n' :: ·)
  | c :: format, arguments =>
      if c = '%' ∨ c = '\\' then none else (printfText format arguments).map (c :: ·)

/-- The commands one after the other. -/
def runLines : List Line → Option Effects
  | [] => some ⟨[], none⟩
  | line :: rest =>
      match expandWords invocation line.words with
      | some (command :: arguments) =>
          if command = "printf".toList then
            match arguments, line.appendTo.bind (expandWord invocation) with
            | format :: arguments, some [path] =>
                match printfText format arguments with
                | some printed =>
                    (runLines rest).map fun effects =>
                      { effects with appended := (path, printed) :: effects.appended }
                | none => none
            | _, _ => none
          else if command = "exec".toList ∧ line.appendTo = none ∧
              (arguments.headD []).head? = some '/' then
            some ⟨[], some arguments⟩
          else none
      | _ => none

/-- What a script does when it is called like this. -/
def runScript (text : List Char) : Option Effects := (readScript text).bind (runLines invocation)

end Running

/-! ## Words -/

section Words

variable {fuel : Nat} {word : Word} {text rest : List Char}

/-- A line with one word less to read. -/
theorem readLine_word {first : Char}
    (hfirst : isBlank first = false ∧ first ≠ '\n' ∧ first ≠ '#' ∧ first ≠ '>')
    (hword : readWord (.plain .start) (first :: text) = some (word, rest)) :
    readLine (fuel + 1) (first :: text) = addWord word (readLine fuel rest) := by
  obtain ⟨hblank, hbreak, hcomment, happend⟩ := hfirst
  rw [readLine, List.dropWhile_cons_of_neg (ne_true_of_eq_false hblank)]
  split
  · next h => cases h
  · next h => exact absurd (List.cons.inj h).1 hbreak
  · next h => exact absurd (List.cons.inj h).1 hcomment
  · next h => exact absurd (List.cons.inj h).1 happend
  · next h =>
    obtain ⟨rfl, rfl⟩ := List.cons.inj h
    rw [hword]

theorem readLine_blank (text : List Char) :
    readLine (fuel + 1) (' ' :: text) = readLine (fuel + 1) text := by
  rw [readLine, readLine, List.dropWhile_cons_of_pos rfl]

/-- A quoted word does not look like a blank, a comment or a redirection. -/
theorem quoteWord_eq_cons (locale : Printing) (text : List Char) :
    ∃ first rest, quoteWord locale text = first :: rest ∧
      isBlank first = false ∧ first ≠ '\n' ∧ first ≠ '#' ∧ first ≠ '>' := by
  have hquoted : ∀ c ∈ ['\'', '$', '\\', '\x01'],
      isBlank c = false ∧ c ≠ '\n' ∧ c ≠ '#' ∧ c ≠ '>' := by
    simp [isBlank]
  unfold quoteWord
  split
  · exact ⟨'\'', ['\''], rfl, hquoted '\'' (by decide)⟩
  · next hne =>
    split
    · exact ⟨'$', '\'' :: (ansiBody locale [] text ++ ['\'']), rfl, hquoted '$' (by decide)⟩
    · cases text with
      | nil => exact absurd rfl hne
      | cons c text =>
          rw [backslashQuote]
          split
          · exact ⟨'\\', c :: backslashQuote (Before.after c) text, rfl, hquoted '\\' (by decide)⟩
          · next hspecial =>
            split
            · exact ⟨'\x01', c :: backslashQuote (Before.after c) text, rfl,
                hquoted '\x01' (by decide)⟩
            · split
              · exact ⟨'\\', c :: backslashQuote (Before.after c) text, rfl,
                  hquoted '\\' (by decide)⟩
              · next hplace =>
                refine ⟨c, backslashQuote (Before.after c) text, rfl, ?_, ?_, ?_, ?_⟩
                · unfold isBlank
                  by_contra hblank
                  simp only [Bool.not_eq_false, Bool.or_eq_true, decide_eq_true_eq] at hblank
                  rcases hblank with rfl | rfl
                  · exact hspecial rfl
                  · exact hspecial rfl
                · rintro rfl
                  exact hspecial rfl
                · rintro rfl
                  exact hplace rfl
                · rintro rfl
                  exact hspecial rfl

/-- A quoted word on a line is read as the text it was written for. -/
theorem readLine_quoteWord (locale : Printing) {text : List Char} (htext : Bytes text)
    {tail : List Char} (htail : Ends tail) :
    readLine (fuel + 1) (quoteWord locale text ++ tail) =
      addWord (text.map Piece.char) (readLine fuel tail) := by
  have hword := readWord_quoteWord locale htext htail
  obtain ⟨first, rest, hquote, hfirst⟩ := quoteWord_eq_cons locale text
  rw [hquote, List.cons_append] at hword ⊢
  exact readLine_word hfirst hword

/-- A quoted word is read as the file to append to. -/
theorem readLine_appendTo (locale : Printing) {text : List Char} (htext : Bytes text)
    {tail : List Char} (htail : Ends tail) :
    readLine (fuel + 1) ('>' :: '>' :: ' ' :: (quoteWord locale text ++ tail)) =
      addTarget (text.map Piece.char) (readLine fuel tail) := by
  have hword := readWord_quoteWord locale htext htail
  obtain ⟨first, rest, hquote, hblank, _⟩ := quoteWord_eq_cons locale text
  rw [hquote, List.cons_append] at hword ⊢
  have hdrop : (' ' :: first :: (rest ++ tail)).dropWhile isBlank = first :: (rest ++ tail) := by
    rw [List.dropWhile_cons_of_pos rfl, List.dropWhile_cons_of_neg (ne_true_of_eq_false hblank)]
  rw [readLine, List.dropWhile_cons_of_neg (by decide)]
  split
  · next h => cases h
  · next h => exact absurd (List.cons.inj h).1 (by decide)
  · next h => exact absurd (List.cons.inj h).1 (by decide)
  · next h =>
    have hrest := (List.cons.inj (List.cons.inj h).2).2
    rw [← hrest, hdrop, hword]
  · next hother h =>
    obtain ⟨hfirst, hrest⟩ := List.cons.inj h
    exact (hother _ hfirst.symm hrest.symm).elim

/-- One line less to read. -/
theorem readLines_line {line : Line} (hne : text ≠ [])
    (hline : readLine (fuel + 1) text = some (line, rest)) :
    readLines (fuel + 1) text = (readLines fuel rest).map (line :: ·) := by
  cases text with
  | nil => exact absurd rfl hne
  | cons c text =>
      rw [readLines, hline]
      exact hne

theorem expandWord_text (invocation : Invocation) (text : List Char) :
    expandWord invocation (text.map Piece.char) = some [text] := by
  have hpieces : (text.map Piece.char).mapM (expandPiece invocation) =
      some (text.map fun c => [c]) := by
    induction text with
    | nil => rfl
    | cons c text ih => rw [List.map_cons, List.mapM_cons, ih]; rfl
  have hne : text.map Piece.char ≠ [.each] := by
    cases text with
    | nil => nofun
    | cons c text => nofun
  rw [expandWord, if_neg hne, hpieces, Option.map_some, ← List.flatMap_def, List.flatMap_singleton']

theorem expandWord_zero (invocation : Invocation) :
    expandWord invocation [.zero] = some [invocation.zero] :=
  congrArg (fun text => some [text]) (List.append_nil invocation.zero)

theorem expandWord_star (invocation : Invocation) :
    expandWord invocation [.star] = some [invocation.joined] :=
  congrArg (fun text => some [text]) (List.append_nil invocation.joined)

theorem expandWord_each (invocation : Invocation) :
    expandWord invocation [.each] = some invocation.arguments := rfl

theorem expandWords_nil (invocation : Invocation) : expandWords invocation [] = some [] := rfl

theorem expandWords_cons {invocation : Invocation} {words : List Word}
    {texts found : List (List Char)} (hword : expandWord invocation word = some texts)
    (hwords : expandWords invocation words = some found) :
    expandWords invocation (word :: words) = some (texts ++ found) := by
  obtain ⟨lists, hlists, rfl⟩ := Option.map_eq_some_iff.mp hwords
  rw [expandWords, List.mapM_cons, hword, hlists]
  rfl

end Words

/-! ## Commands -/

section Commands

variable {invocation : Invocation} {words : List Word} {rest : List Line}

theorem runLines_printf {target : Word} {format path printed : List Char}
    {arguments : List (List Char)} {effects : Effects}
    (hwords : expandWords invocation words = some ("printf".toList :: format :: arguments))
    (hpath : expandWord invocation target = some [path])
    (hprinted : printfText format arguments = some printed)
    (hrest : runLines invocation rest = some effects) :
    runLines invocation (⟨words, some target⟩ :: rest) =
      some { effects with appended := (path, printed) :: effects.appended } := by
  rw [runLines, hwords]
  dsimp only
  rw [if_pos rfl, Option.bind_some, hpath]
  dsimp only
  rw [hprinted]
  dsimp only
  rw [hrest, Option.map_some]

theorem runLines_exec (rest : List Line) {program : List Char} {arguments : List (List Char)}
    (hwords : expandWords invocation words = some ("exec".toList :: program :: arguments))
    (habsolute : program.head? = some '/') :
    runLines invocation (⟨words, none⟩ :: rest) = some ⟨[], some (program :: arguments)⟩ := by
  have hname : "exec".toList ≠ "printf".toList := by decide
  rw [runLines, hwords]
  dsimp only
  rw [if_neg hname, if_pos ⟨rfl, rfl, habsolute⟩]

end Commands

end Icflow.Foundation.Shell
