import Mathlib.Data.Finset.Insert

set_option autoImplicit false

/-!
# Loops that add to a set or fail

A run takes a set and either fails or gives back a set with more elements.  `Collects` says
of a run on which condition it succeeds, what it then adds, and with which errors it fails
otherwise; these descriptions compose as the runs do.
-/

namespace Icflow.Foundation

section Collecting

variable {α ε : Type}

/-- Under the condition the run adds exactly the given elements to any set, and without it
the run fails with an admissible error. -/
def Collects (run : Finset α → Except ε (Finset α)) (Good : Prop) (Added : α → Prop)
    (Admissible : ε → Prop) : Prop :=
  ∀ s, (Good ∧ ∃ s', run s = .ok s' ∧ ∀ a, a ∈ s' ↔ a ∈ s ∨ Added a) ∨
    ¬ Good ∧ ∃ error, run s = .error error ∧ Admissible error

/-- One run after the other, unless the first one fails. -/
def andThen (first second : Finset α → Except ε (Finset α)) (s : Finset α) :
    Except ε (Finset α) :=
  match first s with
  | .error error => .error error
  | .ok s' => second s'

namespace Collects

variable {run first second : Finset α → Except ε (Finset α)} {Good Good₁ Good₂ : Prop}
  {Added Added₁ Added₂ : α → Prop} {Admissible : ε → Prop}

/-- A run that adds nothing. -/
theorem done (Admissible : ε → Prop) :
    Collects (fun s : Finset α => .ok s) True (fun _ => False) Admissible := by
  intro s
  refine Or.inl ⟨trivial, s, rfl, ?_⟩
  intro a
  exact (or_iff_left not_false).symm

/-- A run that always fails. -/
theorem fails {error : ε} (h : Admissible error) (Added : α → Prop) :
    Collects (fun _ => .error error) False Added Admissible :=
  fun _ => Or.inr ⟨not_false, error, rfl, h⟩

/-- A run that adds one element. -/
theorem adds [DecidableEq α] (element : α) (Admissible : ε → Prop) :
    Collects (fun s => .ok (insert element s)) True (fun a => a = element) Admissible := by
  intro s
  refine Or.inl ⟨trivial, insert element s, rfl, ?_⟩
  intro a
  rw [Finset.mem_insert, or_comm]

/-- The composition of two runs. -/
theorem andThen (hfirst : Collects first Good₁ Added₁ Admissible)
    (hsecond : Collects second Good₂ Added₂ Admissible) :
    Collects (Foundation.andThen first second) (Good₁ ∧ Good₂) (fun a => Added₁ a ∨ Added₂ a)
      Admissible := by
  intro s
  unfold Foundation.andThen
  rcases hfirst s with ⟨hgood, s', heq, hadded⟩ | ⟨hbad, error, heq, herror⟩
  · rw [heq]
    rcases hsecond s' with ⟨hgood', s'', heq', hadded'⟩ | ⟨hbad, error, heq', herror⟩
    · refine Or.inl ⟨⟨hgood, hgood'⟩, s'', heq', ?_⟩
      intro a
      rw [hadded', hadded, or_assoc]
    · exact Or.inr ⟨fun h => hbad h.2, error, heq', herror⟩
  · rw [heq]
    exact Or.inr ⟨fun h => hbad h.1, error, rfl, herror⟩

/-- What is added matters under the condition only. -/
theorem congr (h : Collects run Good Added Admissible) {Good' : Prop} {Added' : α → Prop}
    (hgood : Good ↔ Good') (hadded : Good → ∀ a, Added a ↔ Added' a) :
    Collects run Good' Added' Admissible := by
  intro s
  rcases h s with ⟨hholds, s', heq, hmem⟩ | ⟨hbad, error, heq, herror⟩
  · refine Or.inl ⟨hgood.mp hholds, s', heq, ?_⟩
    intro a
    rw [hmem, hadded hholds a]
  · exact Or.inr ⟨fun h' => hbad (hgood.mpr h'), error, heq, herror⟩

end Collects

end Collecting

end Icflow.Foundation
