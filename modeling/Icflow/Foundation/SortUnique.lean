import Mathlib.Data.List.Basic

set_option autoImplicit false

/-!
# Sorting without repetitions

`sort -u` over any type with a total order: the list is sorted, and of elements that
compare equal the first one is kept.  The result holds the elements of the list in strict
order.
-/

namespace Icflow.Foundation

/-- A total order that is computed. -/
structure TotalOrder (α : Type) where
  le : α → α → Bool
  trans : ∀ a b c, le a b = true → le b c = true → le a c = true
  total : ∀ a b, (le a b || le b a) = true
  antisymm : ∀ a b, le a b = true → le b a = true → a = b

/-- The list holds the elements of the other one, each once, in order. -/
structure IsListing {α : Type} (order : TotalOrder α) (listed source : List α) : Prop where
  sorted : listed.Pairwise fun a b => order.le b a = false
  mem : ∀ a, a ∈ listed ↔ a ∈ source

section SortUnique

variable {α : Type} {order : TotalOrder α} {source source' listed rest : List α} {last : α}

/-- What is kept of a sorted list after the element that was kept last. -/
def dropRepeats (order : TotalOrder α) (last : α) : List α → List α
  | [] => []
  | a :: rest => if order.le a last then dropRepeats order last rest else a :: dropRepeats order a rest

/-- `sort -u`. -/
def sortUnique (order : TotalOrder α) (source : List α) : List α :=
  match source.mergeSort order.le with
  | [] => []
  | a :: rest => a :: dropRepeats order a rest

theorem mem_dropRepeats (h : (last :: rest).Pairwise fun a b => order.le a b = true) (a : α) :
    a ∈ last :: dropRepeats order last rest ↔ a ∈ last :: rest := by
  induction rest generalizing last with
  | nil => rfl
  | cons b rest ih =>
      obtain ⟨hlast, hrest⟩ := List.pairwise_cons.mp h
      unfold dropRepeats
      split
      · -- an element that compares equal to the last one is the last one
        rename_i hequal
        obtain rfl := order.antisymm _ _ (hlast b List.mem_cons_self) hequal
        rw [ih hrest, List.mem_cons, List.mem_cons, List.mem_cons]
        exact ⟨fun hmem => Or.inr hmem, fun hmem => hmem.elim Or.inl id⟩
      · rw [List.mem_cons, ih hrest, ← List.mem_cons]

theorem pairwise_dropRepeats (h : (last :: rest).Pairwise fun a b => order.le a b = true) :
    (last :: dropRepeats order last rest).Pairwise fun a b => order.le b a = false := by
  induction rest generalizing last with
  | nil => exact List.pairwise_singleton _ _
  | cons b rest ih =>
      obtain ⟨hlast, hrest⟩ := List.pairwise_cons.mp h
      unfold dropRepeats
      split
      · apply ih
        exact h.sublist ((List.sublist_cons_self b rest).cons_cons last)
      · rename_i hnew
        apply List.Pairwise.cons _ (ih hrest)
        intro c hc
        rw [← Bool.not_eq_true]
        intro hle
        have hbc : order.le b c = true := by
          rcases List.mem_cons.mp ((mem_dropRepeats hrest c).mp hc) with rfl | hlater
          · have hself := order.total c c
            rwa [Bool.or_self] at hself
          · exact (List.pairwise_cons.mp hrest).1 c hlater
        exact hnew (order.trans _ _ _ hbc hle)

theorem isListing_sortUnique (order : TotalOrder α) (source : List α) :
    IsListing order (sortUnique order source) source := by
  have hsorted := List.pairwise_mergeSort order.trans order.total source
  have hmem : ∀ a, a ∈ source.mergeSort order.le ↔ a ∈ source := fun a => List.mem_mergeSort
  unfold sortUnique
  split
  · rename_i hnil
    rw [hnil] at hmem
    exact ⟨List.Pairwise.nil, hmem⟩
  · rename_i first rest hcons
    rw [hcons] at hsorted hmem
    exact ⟨pairwise_dropRepeats hsorted, fun a => (mem_dropRepeats hsorted a).trans (hmem a)⟩

/-- A listing is one of every list with the same elements. -/
theorem IsListing.congr (h : IsListing order listed source)
    (hmem : ∀ a, a ∈ source ↔ a ∈ source') : IsListing order listed source' where
  sorted := h.sorted
  mem := fun a => (h.mem a).trans (hmem a)

theorem IsListing.ne_nil (h : IsListing order listed source) (hsource : source ≠ []) :
    listed ≠ [] := by
  obtain ⟨a, ha⟩ := List.exists_mem_of_ne_nil source hsource
  exact List.ne_nil_of_mem ((h.mem a).mpr ha)

end SortUnique

end Icflow.Foundation
