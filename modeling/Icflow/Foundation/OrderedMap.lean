import Std.Data.ExtTreeMap.Lemmas
import Mathlib.Data.Multiset.Fold
import Mathlib.Data.Finset.Defs

set_option autoImplicit false

/-!
# Ordered maps as lists

Facts about `Std.ExtTreeMap` that the core library does not state: what a map
built from a list with distinct keys holds, and that a map is rebuilt from its own
listing.  `ascending` lists a finite set through such a map.
-/

namespace Icflow.Foundation

open Std (ExtTreeMap TransCmp LawfulEqCmp)

variable {α β : Type} {cmp : α → α → Ordering} [TransCmp cmp] [LawfulEqCmp cmp]

/-- A map built from a list with distinct keys holds exactly the list. -/
theorem mem_toList_ofList {entries : List (α × β)}
    (hdistinct : entries.Pairwise fun a b => ¬ cmp a.1 b.1 = .eq) {k : α} {v : β} :
    (k, v) ∈ (ExtTreeMap.ofList entries cmp).toList ↔ (k, v) ∈ entries := by
  classical
  rw [ExtTreeMap.mem_toList_iff_getElem?_eq_some]
  constructor
  · intro h
    by_cases hk : (entries.map Prod.fst).contains k = true
    · rw [List.contains_iff_mem, List.mem_map] at hk
      obtain ⟨⟨k', v'⟩, hmem, rfl⟩ := hk
      have hself : cmp k' k' = .eq := Std.ReflCmp.compare_self
      have hget : (ExtTreeMap.ofList entries cmp)[k']? = some v' :=
        ExtTreeMap.getElem?_ofList_of_mem hself hdistinct hmem
      rw [hget] at h
      cases h
      exact hmem
    · rw [Bool.not_eq_true] at hk
      rw [ExtTreeMap.getElem?_ofList_of_contains_eq_false hk] at h
      cases h
  · intro h
    exact ExtTreeMap.getElem?_ofList_of_mem Std.ReflCmp.compare_self hdistinct h

/-- A map is rebuilt from its own listing. -/
theorem ofList_toList (m : ExtTreeMap α β cmp) : ExtTreeMap.ofList m.toList cmp = m := by
  apply ExtTreeMap.ext_getElem?
  intro k
  apply Option.ext
  intro v
  rw [← ExtTreeMap.mem_toList_iff_getElem?_eq_some, mem_toList_ofList m.distinct_keys_toList,
    ExtTreeMap.mem_toList_iff_getElem?_eq_some]

/-! ## Ascending listings of finite sets -/

/-- The finite set as the keys of an ordered map. -/
def keyMap (cmp : α → α → Ordering) [TransCmp cmp] [LawfulEqCmp cmp] (s : Multiset α) :
    ExtTreeMap α Unit cmp :=
  haveI : LeftCommutative fun (k : α) (m : ExtTreeMap α Unit cmp) => m.insert k () := by
    constructor
    intro a b m
    apply ExtTreeMap.ext_getElem?
    intro k
    simp only [ExtTreeMap.getElem?_insert]
    split <;> split <;> rfl
  s.foldr (fun k m => m.insert k ()) ∅

theorem mem_keyMap {s : Multiset α} {a : α} : a ∈ keyMap cmp s ↔ a ∈ s := by
  induction s using Multiset.induction_on with
  | empty => simp [keyMap]
  | cons b s ih =>
      have hcons : keyMap cmp (b ::ₘ s) = (keyMap cmp s).insert b () := by
        simp [keyMap]
      rw [hcons, ExtTreeMap.mem_insert, ih, Multiset.mem_cons, Std.LawfulEqCmp.compare_eq_iff_eq]
      exact or_congr_left eq_comm

/-- The elements in ascending order. -/
def ascending (cmp : α → α → Ordering) [TransCmp cmp] [LawfulEqCmp cmp] (s : Finset α) : List α :=
  (keyMap cmp s.val).keys

theorem nodup_ascending (s : Finset α) : (ascending cmp s).Nodup := by
  refine (keyMap cmp s.val).distinct_keys.imp ?_
  rintro a b hab rfl
  exact hab Std.ReflCmp.compare_self

theorem mem_ascending {s : Finset α} {a : α} : a ∈ ascending cmp s ↔ a ∈ s := by
  rw [ascending, ExtTreeMap.mem_keys, mem_keyMap, Finset.mem_val]

end Icflow.Foundation
