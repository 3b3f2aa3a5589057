import Std.Data.ExtTreeMap.Lemmas
import Mathlib.Data.Finset.Union
import Mathlib.Data.Finset.Prod
import Mathlib.Data.Finset.Image

set_option autoImplicit false

/-!
# Edge maps of the Pin tool

`MyPinTool.cpp` keeps each kind of indirect transfer in a
`std::map<ADDRINT, std::unordered_set<ADDRINT>>`.  The ordered map is an
extensional tree map, the unordered set a finite set; the one thing a finite set
does not have, the order in which `unordered_set` iterates, is a parameter of the
writer.  The tool only ever runs `edgeMap[src].insert(tgt)`, so no source is
mapped to an empty set: `EdgeMap` carries that as a field, and with it two edge
maps with the same edges are equal.
-/

namespace Icflow.PinTool

open Std (ExtTreeMap)

/-- Pin's 64-bit addresses. -/
abbrev ADDRINT := BitVec 64

instance transCmpAddrint : Std.TransCmp (compare : ADDRINT → ADDRINT → Ordering) :=
  inferInstance

instance lawfulEqCmpAddrint : Std.LawfulEqCmp (compare : ADDRINT → ADDRINT → Ordering) :=
  inferInstance

/-- `std::map<ADDRINT, std::unordered_set<ADDRINT>>`, as the tool fills it. -/
structure EdgeMap where
  toMap : ExtTreeMap ADDRINT (Finset ADDRINT) compare
  targets_nonempty : ∀ (src : ADDRINT) (tgts : Finset ADDRINT),
    toMap[src]? = some tgts → tgts.Nonempty
  deriving DecidableEq

namespace EdgeMap

/-- The global map before anything is recorded. -/
def empty : EdgeMap where
  toMap := ∅
  targets_nonempty := by simp

/-- `edgeMap[src].insert(tgt)`. -/
def insertEdge (m : EdgeMap) (src tgt : ADDRINT) : EdgeMap where
  toMap := m.toMap.insert src (insert tgt (m.toMap.getD src ∅))
  targets_nonempty := by
    intro src' tgts h
    rw [ExtTreeMap.getElem?_insert] at h
    split at h
    · cases h
      exact Finset.insert_nonempty _ _
    · exact m.targets_nonempty src' tgts h

/-- The targets recorded for a source. -/
def targets (m : EdgeMap) (src : ADDRINT) : Finset ADDRINT := m.toMap.getD src ∅

/-- All recorded pairs. -/
def edges (m : EdgeMap) : Finset (ADDRINT × ADDRINT) :=
  m.toMap.toList.toFinset.biUnion fun entry => entry.2.image fun tgt => (entry.1, tgt)

theorem mem_targets_iff {m : EdgeMap} {src tgt : ADDRINT} :
    tgt ∈ m.targets src ↔ ∃ tgts, m.toMap[src]? = some tgts ∧ tgt ∈ tgts := by
  rw [targets, ExtTreeMap.getD_eq_getD_getElem?]
  cases h : m.toMap[src]? with
  | none => simp
  | some tgts => simp

theorem mem_edges {m : EdgeMap} {src tgt : ADDRINT} :
    (src, tgt) ∈ m.edges ↔ tgt ∈ m.targets src := by
  rw [mem_targets_iff]
  simp only [edges, Finset.mem_biUnion, List.mem_toFinset, Finset.mem_image, Prod.mk.injEq]
  constructor
  · rintro ⟨⟨src', tgts⟩, hentry, tgt', htgt, rfl, rfl⟩
    exact ⟨tgts, ExtTreeMap.mem_toList_iff_getElem?_eq_some.mp hentry, htgt⟩
  · rintro ⟨tgts, hentry, htgt⟩
    exact ⟨(src, tgts), ExtTreeMap.mem_toList_iff_getElem?_eq_some.mpr hentry,
      tgt, htgt, rfl, rfl⟩

@[simp] theorem edges_empty : empty.edges = ∅ := by decide

theorem targets_insertEdge (m : EdgeMap) (src tgt src' : ADDRINT) :
    (m.insertEdge src tgt).targets src' =
      if src = src' then insert tgt (m.targets src') else m.targets src' := by
  simp only [targets, insertEdge, ExtTreeMap.getD_insert, Std.compare_eq_iff_eq]
  split
  · rename_i h
    rw [h]
  · rfl

@[simp] theorem edges_insertEdge (m : EdgeMap) (src tgt : ADDRINT) :
    (m.insertEdge src tgt).edges = insert (src, tgt) m.edges := by
  ext ⟨src', tgt'⟩
  rw [mem_edges, targets_insertEdge, Finset.mem_insert, mem_edges, Prod.mk.injEq]
  split
  · rename_i h
    simp [h]
  · rename_i h
    simp [Ne.symm h]

/-- An edge map is determined by its pairs, because no entry is empty. -/
theorem eq_of_edges_eq {m m' : EdgeMap} (h : m.edges = m'.edges) : m = m' := by
  have htargets : ∀ src, m.targets src = m'.targets src := by
    intro src
    ext tgt
    rw [← mem_edges, ← mem_edges, h]
  have hmap : m.toMap = m'.toMap := by
    apply ExtTreeMap.ext_getElem?
    intro src
    have hsrc := htargets src
    simp only [targets, ExtTreeMap.getD_eq_getD_getElem?] at hsrc
    cases hm : m.toMap[src]? with
    | none =>
        cases hm' : m'.toMap[src]? with
        | none => rfl
        | some tgts =>
            have hne := m'.targets_nonempty src tgts hm'
            simp only [hm, hm', Option.getD_none, Option.getD_some] at hsrc
            exact absurd hsrc.symm hne.ne_empty
    | some tgts =>
        have hne := m.targets_nonempty src tgts hm
        cases hm' : m'.toMap[src]? with
        | none =>
            simp only [hm, hm', Option.getD_none, Option.getD_some] at hsrc
            exact absurd hsrc hne.ne_empty
        | some tgts' =>
            simp only [hm, hm', Option.getD_some] at hsrc
            rw [hsrc]
  cases m
  cases m'
  simp only at hmap
  subst hmap
  rfl

/-- The underlying map has no entry exactly when the edge map is empty. -/
theorem toMap_isEmpty_iff {m : EdgeMap} : m.toMap.isEmpty = true ↔ m = empty := by
  rw [ExtTreeMap.isEmpty_iff]
  constructor
  · intro h
    cases m
    simp only at h
    subst h
    rfl
  · rintro rfl
    rfl

end EdgeMap

end Icflow.PinTool
