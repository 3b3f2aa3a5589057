import Mathlib.Data.List.Basic

set_option autoImplicit false

/-!
# Lines and parts of a text

`lines` cuts a text at its newlines; what follows the last newline is a line of its
own, empty when the text ends with one.
-/

namespace Icflow.Foundation

/-- The pieces between newlines. -/
def lines : List Char → List (List Char)
  | [] => [[]]
  | c :: rest =>
      if c = '\n' then [] :: lines rest
      else
        match lines rest with
        | [] => [[c]]
        | first :: others => (c :: first) :: others

/-- A text without newline, ended by one, is the first line. -/
theorem lines_append_newline {first : List Char} (hfirst : '\n' ∉ first) (rest : List Char) :
    lines (first ++ '\n' :: rest) = first :: lines rest := by
  induction first with
  | nil => simp [lines]
  | cons c first ih =>
      have hc : c ≠ '\n' := fun heq => hfirst (heq ▸ List.mem_cons_self)
      have htail : '\n' ∉ first := fun h => hfirst (List.mem_cons_of_mem c h)
      rw [List.cons_append, lines, if_neg hc, ih htail]

theorem lines_ne_nil (text : List Char) : lines text ≠ [] := by
  cases text with
  | nil => exact List.cons_ne_nil _ _
  | cons c rest =>
      unfold lines
      split
      · exact List.cons_ne_nil _ _
      · split
        · exact List.cons_ne_nil _ _
        · exact List.cons_ne_nil _ _

theorem lines_of_notMem {text : List Char} (h : '\n' ∉ text) : lines text = [text] := by
  induction text with
  | nil => rfl
  | cons c rest ih =>
      have hc : c ≠ '\n' := fun heq => h (heq ▸ List.mem_cons_self)
      rw [lines, if_neg hc, ih fun hmem => h (List.mem_cons_of_mem c hmem)]

/-- The lines of a file; what follows the last newline is one unless it is empty. -/
def pieces (text : List Char) : List (List Char) :=
  if (lines text).getLast? = some [] then (lines text).dropLast else lines text

theorem mem_lines_of_mem_pieces {text line : List Char} (h : line ∈ pieces text) :
    line ∈ lines text := by
  unfold pieces at h
  split at h
  · exact List.dropLast_subset _ h
  · exact h

theorem pieces_of_notMem {text : List Char} (h : '\n' ∉ text) :
    pieces text = if text = [] then [] else [text] := by
  rw [pieces, lines_of_notMem h, List.getLast?_singleton]
  by_cases hnil : text = []
  · rw [if_pos (congrArg some hnil), if_pos hnil]
    rfl
  · rw [if_neg fun heq => hnil (Option.some.inj heq), if_neg hnil]

theorem pieces_append_newline {first : List Char} (hfirst : '\n' ∉ first) (rest : List Char) :
    pieces (first ++ '\n' :: rest) = first :: pieces rest := by
  rw [pieces, pieces, lines_append_newline hfirst]
  obtain ⟨next, others, hlines⟩ := List.exists_cons_of_ne_nil (lines_ne_nil rest)
  rw [hlines, List.getLast?_cons_cons, List.dropLast_cons_cons, apply_ite (List.cons first)]

/-- The texts as lines of a file. -/
def unlines (texts : List (List Char)) : List Char := texts.flatMap fun line => line ++ ['\n']

theorem lines_unlines {texts : List (List Char)} (h : ∀ line ∈ texts, '\n' ∉ line) :
    lines (unlines texts) = texts ++ [[]] := by
  induction texts with
  | nil => rfl
  | cons line texts ih =>
      have hsplit : unlines (line :: texts) = line ++ '\n' :: unlines texts := by
        simp only [unlines, List.flatMap_cons, List.append_assoc, List.singleton_append]
      rw [hsplit, lines_append_newline (h line List.mem_cons_self),
        ih (List.forall_mem_of_forall_mem_cons h), List.cons_append]

theorem unlines_append (front rest : List (List Char)) :
    unlines (front ++ rest) = unlines front ++ unlines rest := List.flatMap_append

theorem unlines_ne_nil {texts : List (List Char)} (h : texts ≠ []) : unlines texts ≠ [] := by
  cases texts with
  | nil => exact absurd rfl h
  | cons line texts => simp [unlines]

/-- The lines of a file are what it was put together from. -/
theorem pieces_unlines {texts : List (List Char)} (h : ∀ line ∈ texts, '\n' ∉ line) :
    pieces (unlines texts) = texts := by
  rw [pieces, lines_unlines h, List.getLast?_concat, if_pos rfl, List.dropLast_concat]

/-- `grep -c` with a pattern that is a fixed text after `^`. -/
def countPrefixed (pattern text : List Char) : Nat :=
  (lines text).countP fun line => pattern.isPrefixOf line

theorem countPrefixed_unlines {pattern : List Char} (hpattern : pattern ≠ [])
    {texts : List (List Char)} (h : ∀ line ∈ texts, '\n' ∉ line) :
    countPrefixed pattern (unlines texts) = texts.countP fun line => pattern.isPrefixOf line := by
  have hempty : pattern.isPrefixOf [] = false := by
    cases pattern with
    | nil => exact absurd rfl hpattern
    | cons c rest => rfl
  rw [countPrefixed, lines_unlines h, List.countP_append, List.countP_singleton, hempty]
  rfl

/-- A line has no other characters than the text. -/
theorem mem_of_mem_lines {text line : List Char} (hline : line ∈ lines text) {c : Char}
    (hc : c ∈ line) : c ∈ text := by
  induction text generalizing line with
  | nil =>
      rw [List.mem_singleton.mp hline] at hc
      exact hc
  | cons first rest ih =>
      unfold lines at hline
      split at hline
      · rcases List.mem_cons.mp hline with rfl | hlater
        · cases hc
        · exact List.mem_cons_of_mem first (ih hlater hc)
      · split at hline
        · rw [List.mem_singleton.mp hline] at hc
          exact List.mem_singleton.mp hc ▸ List.mem_cons_self
        · rename_i next others hlines
          rcases List.mem_cons.mp hline with rfl | hlater
          · rcases List.mem_cons.mp hc with rfl | hc
            · exact List.mem_cons_self
            · exact List.mem_cons_of_mem first (ih (hlines ▸ List.mem_cons_self) hc)
          · exact List.mem_cons_of_mem first
              (ih (hlines ▸ List.mem_cons_of_mem next hlater) hc)

/-- The needle occurs somewhere in the text. -/
def containsText (needle : List Char) : List Char → Bool
  | [] => needle.isEmpty
  | c :: rest => needle.isPrefixOf (c :: rest) || containsText needle rest

theorem containsText_iff {needle text : List Char} :
    containsText needle text = true ↔ needle <:+: text := by
  induction text with
  | nil =>
      rw [containsText, List.isEmpty_iff, List.infix_nil]
  | cons c text ih =>
      rw [containsText, Bool.or_eq_true, List.isPrefixOf_iff_prefix, ih, List.infix_cons_iff]

end Icflow.Foundation
