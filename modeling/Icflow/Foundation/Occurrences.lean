import Mathlib.Data.List.Infix

set_option autoImplicit false

/-!
# Occurrences in a text with a separator

Where a pattern can occur in two texts joined by a separator: without the separator in it,
on one side only; enclosed by two of them, on one side with the separator.
-/

namespace Icflow.Foundation

section Join

variable {α : Type} {separator : α} {pattern : List α}

/-- Every element of a pattern without the separator is another one. -/
theorem bne_of_notMem [BEq α] [LawfulBEq α] (h : separator ∉ pattern) :
    ∀ a ∈ pattern, (a != separator) = true := by
  intro a ha
  rw [bne_iff_ne]
  rintro rfl
  exact h ha

theorem prefix_append_cons_iff (h : separator ∉ pattern) (front rest : List α) :
    pattern <+: front ++ separator :: rest ↔ pattern <+: front := by
  constructor
  · intro hprefix
    induction front generalizing pattern with
    | nil =>
        cases pattern with
        | nil => exact List.nil_prefix
        | cons first pattern =>
            obtain ⟨heq, _⟩ := List.cons_prefix_cons.mp hprefix
            exact absurd (heq ▸ List.mem_cons_self) h
    | cons first front ih =>
        cases pattern with
        | nil => exact List.nil_prefix
        | cons other pattern =>
            obtain ⟨heq, hrest⟩ := List.cons_prefix_cons.mp hprefix
            have hpattern := ih (fun hmem => h (List.mem_cons_of_mem other hmem)) hrest
            exact List.cons_prefix_cons.mpr ⟨heq, hpattern⟩
  · intro hprefix
    exact hprefix.trans (List.prefix_append front _)

theorem suffix_append_cons_iff (h : separator ∉ pattern) (front rest : List α) :
    pattern <:+ front ++ separator :: rest ↔ pattern <:+ rest := by
  have hreverse : separator ∉ pattern.reverse := fun hmem => h (List.mem_reverse.mp hmem)
  rw [← List.reverse_prefix, List.reverse_append, List.reverse_cons, List.append_assoc,
    List.singleton_append, prefix_append_cons_iff hreverse, List.reverse_prefix]

theorem infix_append_cons_iff (h : separator ∉ pattern) (front rest : List α) :
    pattern <:+: front ++ separator :: rest ↔ pattern <:+: front ∨ pattern <:+: rest := by
  induction front with
  | nil =>
      rw [List.nil_append, List.infix_cons_iff, List.infix_nil]
      apply or_congr_left
      exact (prefix_append_cons_iff h [] rest).trans List.prefix_nil
  | cons first front ih =>
      rw [List.cons_append, List.infix_cons_iff, List.infix_cons_iff, ih, or_assoc,
        ← List.cons_append, prefix_append_cons_iff h]

theorem closed_prefix_append_cons_iff (h : separator ∉ pattern) (front rest : List α) :
    pattern ++ [separator] <+: front ++ separator :: rest ↔
      pattern ++ [separator] <+: front ++ [separator] := by
  induction front generalizing pattern with
  | nil =>
      cases pattern with
      | nil => simp
      | cons first pattern =>
          have hfirst : first ≠ separator := fun heq => h (heq ▸ List.mem_cons_self)
          simp [hfirst]
  | cons first front ih =>
      cases pattern with
      | nil => simp
      | cons other pattern =>
          have hpattern : separator ∉ pattern := fun hmem => h (List.mem_cons_of_mem other hmem)
          rw [List.cons_append, List.cons_append, List.cons_append, List.cons_prefix_cons,
            List.cons_prefix_cons, ih hpattern]

/-- A pattern between two separators, such as a whole component of a path. -/
theorem enclosed_infix_append_cons_iff (h : separator ∉ pattern) (front rest : List α) :
    separator :: (pattern ++ [separator]) <:+: front ++ separator :: rest ↔
      separator :: (pattern ++ [separator]) <:+: front ++ [separator] ∨
        separator :: (pattern ++ [separator]) <:+: separator :: rest := by
  induction front with
  | nil =>
      rw [List.nil_append, List.nil_append]
      apply (or_iff_right_of_imp _).symm
      intro hinfix
      exact hinfix.trans (List.prefix_append [separator] rest).isInfix
  | cons first front ih =>
      rw [List.cons_append, List.cons_append, List.infix_cons_iff, ih, ← or_assoc,
        @List.infix_cons_iff _ _ first (front ++ [separator]), List.cons_prefix_cons,
        List.cons_prefix_cons, closed_prefix_append_cons_iff h]

end Join

end Icflow.Foundation
