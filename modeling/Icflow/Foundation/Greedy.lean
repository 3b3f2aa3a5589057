import Mathlib.Data.List.Forall2
import Mathlib.Data.List.Infix

set_option autoImplicit false

/-!
# Greedy selection

Items come one after the other.  Each is taken, which adds its result to what has been
taken so far, or passed over; which of the two depends on what has been taken so far.
-/

namespace Icflow.Foundation

variable {α β : Type}

/-- `chosen` is what is taken from the items: the item that comes next is taken whenever
there is a result for it. -/
inductive Greedy (takes : List β → α → β → Prop) : List α → List β → Prop where
  | nil : Greedy takes [] []
  | take {items : List α} {chosen : List β} {item : α} {result : β} :
      Greedy takes items chosen → takes chosen item result →
      Greedy takes (items ++ [item]) (chosen ++ [result])
  | pass {items : List α} {chosen : List β} {item : α} :
      Greedy takes items chosen → (∀ result, ¬ takes chosen item result) →
      Greedy takes (items ++ [item]) chosen

namespace Greedy

variable {takes : List β → α → β → Prop} {items : List α} {chosen : List β}

/-- Items that cannot be taken any more change nothing. -/
theorem pass_all (h : Greedy takes items chosen) {later : List α}
    (hlater : ∀ item ∈ later, ∀ result, ¬ takes chosen item result) :
    Greedy takes (items ++ later) chosen := by
  induction later generalizing items with
  | nil =>
      rw [List.append_nil]
      exact h
  | cons item rest ih =>
      obtain ⟨hitem, hrest⟩ := List.forall_mem_cons.mp hlater
      have hnext := ih (h.pass hitem) hrest
      rwa [List.append_assoc, List.singleton_append] at hnext

/-- What every take keeps holds in the end. -/
theorem invariant {p : List β → Prop} (h : Greedy takes items chosen) (hnil : p [])
    (htake : ∀ chosen item result, p chosen → takes chosen item result → p (chosen ++ [result])) :
    p chosen := by
  induction h with
  | nil => exact hnil
  | take _ htakes ih => exact htake _ _ _ ih htakes
  | pass _ _ ih => exact ih

/-- Results come from some of the items, in their order. -/
theorem exists_sublist (h : Greedy takes items chosen) :
    ∃ picks, picks.Sublist items ∧
      List.Forall₂ (fun item result => ∃ earlier, takes earlier item result) picks chosen := by
  induction h with
  | nil => exact ⟨[], List.Sublist.refl _, .nil⟩
  | @take items chosen item result _ htakes ih =>
      obtain ⟨picks, hpicks, hresults⟩ := ih
      exact ⟨picks ++ [item], hpicks.append (List.Sublist.refl _),
        List.rel_append hresults (.cons ⟨chosen, htakes⟩ .nil)⟩
  | pass _ _ ih =>
      obtain ⟨picks, hpicks, hresults⟩ := ih
      exact ⟨picks, hpicks.trans (List.sublist_append_left _ _), hresults⟩

/-- With one result for an item there is only one selection. -/
theorem unique (hfunctional : ∀ chosen item result result', takes chosen item result →
      takes chosen item result' → result = result')
    (h : Greedy takes items chosen) {chosen' : List β} (h' : Greedy takes items chosen') :
    chosen = chosen' := by
  induction h generalizing chosen' with
  | nil =>
      generalize hitems : ([] : List α) = items at h'
      cases h' with
      | nil => rfl
      | take _ _ => exact absurd hitems.symm (List.concat_ne_nil _ _)
      | pass _ _ => exact absurd hitems.symm (List.concat_ne_nil _ _)
  | @take items chosen item result _ htakes ih =>
      generalize hitems : items ++ [item] = whole at h'
      cases h' with
      | nil => exact absurd hitems (List.concat_ne_nil _ _)
      | take hbefore htakes' =>
          obtain ⟨rfl, hlast⟩ := List.append_inj' hitems rfl
          obtain rfl := List.singleton_inj.mp hlast
          obtain rfl := ih hbefore
          rw [hfunctional _ _ _ _ htakes htakes']
      | pass hbefore hpass =>
          obtain ⟨rfl, hlast⟩ := List.append_inj' hitems rfl
          obtain rfl := List.singleton_inj.mp hlast
          obtain rfl := ih hbefore
          exact absurd htakes (hpass _)
  | @pass items chosen item _ hpass ih =>
      generalize hitems : items ++ [item] = whole at h'
      cases h' with
      | nil => exact absurd hitems (List.concat_ne_nil _ _)
      | take hbefore htakes' =>
          obtain ⟨rfl, hlast⟩ := List.append_inj' hitems rfl
          obtain rfl := List.singleton_inj.mp hlast
          obtain rfl := ih hbefore
          exact absurd htakes' (hpass _)
      | pass hbefore _ =>
          obtain ⟨rfl, _⟩ := List.append_inj' hitems rfl
          exact ih hbefore

end Greedy

end Icflow.Foundation
