import Icflow.Foundation.IntegerReaders
import Icflow.Foundation.Json.Dialects
import Icflow.Foundation.Json.Limits
import Icflow.Foundation.OrderedMap
import Icflow.PinTool.EdgeMap

set_option autoImplicit false

/-!
# The result file: `SaveEdgesAsJSON` and `LoadEdgesFromJSON`

The text of a result file is a list of bytes (one `Char` each), `none` stands for
a path that does not exist.  The writer is split from the file operations around
it: `edgesText` is what is streamed into the opened file, and the lock protocol is
the subject of `PinTool.LockProtocol`.

`loadEdges_edgesText` is the round trip in the form every later module uses:
loading a written file into a map adds exactly the written edges, for every
iteration order of the hash sets and for the empty map, whose text is `null`.
-/

namespace Icflow.PinTool

open Std (ExtTreeMap)
open Icflow.Foundation
open Icflow.Foundation.Json

/-- The order in which the `std::unordered_set` of each source iterates in one save.  It
depends on how the set was filled, so the sets of two sources with the same targets may
be listed differently. -/
structure TargetOrder where
  list : ADDRINT → Finset ADDRINT → List ADDRINT
  nodup : ∀ src tgts, (list src tgts).Nodup
  mem_list : ∀ src tgts tgt, tgt ∈ list src tgts ↔ tgt ∈ tgts

/-- One such order. -/
def TargetOrder.ascending : TargetOrder where
  list := fun _ => Foundation.ascending compare
  nodup := fun _ => nodup_ascending
  mem_list := fun _ _ _ => mem_ascending

/-! ## Writing -/

/-- `"0x" << std::hex << address`. -/
def addressText (address : ADDRINT) : List Char := hexText address.toNat

/-- The vector of target texts of one source. -/
def targetTexts (tgts : List ADDRINT) : List (Json Char) :=
  tgts.map fun tgt => .str (addressText tgt)

/-- The member `SaveEdgesAsJSON` assigns for one source. -/
def edgeMember (order : TargetOrder) (entry : ADDRINT × Finset ADDRINT) :
    List Char × Json Char :=
  (addressText entry.1, .arr (targetTexts (order.list entry.1 entry.2)))

/-- The members in the order of `json`'s own map, which sorts names bytewise. -/
def edgeMembers (order : TargetOrder) (m : EdgeMap) : ExtTreeMap (List Char) (Json Char) compare :=
  ExtTreeMap.ofList (m.toMap.toList.map (edgeMember order)) compare

/-- The value `SaveEdgesAsJSON` builds.  A default-constructed `json` is null and
becomes an object with the first `j[key] = …`, so an empty map leaves it null. -/
def edgesJson (order : TargetOrder) (m : EdgeMap) : Json Char :=
  if m.toMap.isEmpty then .null else .obj (edgeMembers order m).toList

/-- What is streamed into the file: `j.dump(2)` and `std::endl`. -/
def edgesText (order : TargetOrder) (m : EdgeMap) : List Char :=
  dump 2 0 (edgesJson order m) ++ ['\n']

/-! ## Reading -/

/-- What `LoadEdgesFromJSON` can throw. -/
inductive LoadFault where
  /-- what `in >> j` throws: `nlohmann::json::parse_error`, or `out_of_range` at a number
  that overflows -/
  | parseError
  /-- `nlohmann::json::type_error`, from `get<std::string>()` on another kind -/
  | typeError
  /-- `std::stoull` -/
  | numeric (fault : NumericFault)
  deriving DecidableEq, Repr

/-- `j.items()`: names and values in iteration order.  The elements of an array are
named by their index, a scalar is its own single item with an empty name. -/
def items : Json Char → List (List Char × Json Char)
  | .null => []
  | .obj members => (ExtTreeMap.ofList members compare).toList
  | .arr elements => elements.zipIdx.map fun element => (Nat.toDigits 10 element.2, element.1)
  | value => [([], value)]

/-- The values a range-for over a `json` visits. -/
def rangeValues (value : Json Char) : List (Json Char) := (items value).map Prod.snd

/-- The inner loop of `LoadEdgesFromJSON`. -/
def loadTargets (src : ADDRINT) : List (Json Char) → EdgeMap → Except LoadFault EdgeMap
  | [], edgeMap => .ok edgeMap
  | .str text :: rest, edgeMap =>
      match stoull 64 text with
      | .ok tgt => loadTargets src rest (edgeMap.insertEdge src tgt)
      | .error fault => .error (.numeric fault)
  | _ :: _, _ => .error .typeError

/-- The outer loop of `LoadEdgesFromJSON`. -/
def loadItems : List (List Char × Json Char) → EdgeMap → Except LoadFault EdgeMap
  | [], edgeMap => .ok edgeMap
  | (key, value) :: rest, edgeMap =>
      match stoull 64 key with
      | .error fault => .error (.numeric fault)
      | .ok src =>
          match loadTargets src (rangeValues value) edgeMap with
          | .error fault => .error fault
          | .ok edgeMap' => loadItems rest edgeMap'

/-- `LoadEdgesFromJSON`: `none` is a path that does not exist.  The extraction
`in >> j` stops behind the first value and ignores what follows it. -/
def loadEdgesFromJSON (file : Option (List Char)) (edgeMap : EdgeMap) :
    Except LoadFault EdgeMap :=
  match file with
  | none => .ok edgeMap
  | some text =>
      match parse byteDialect (skipBom text) with
      | none => .error .parseError
      | some (j, _) =>
          if j.numbers.all isFinite then loadItems (items j) edgeMap else .error .parseError

/-! ## The text of an address -/

theorem addressText_injective : Function.Injective addressText := by
  intro a b h
  exact BitVec.eq_of_toNat_eq (hexText_injective h)

theorem stoull_addressText (address : ADDRINT) : stoull 64 (addressText address) = .ok address :=
  stoull_hexText address

theorem isAscii_addressText (address : ADDRINT) : IsAscii (addressText address) := by
  intro c hc
  rcases mem_hexText hc with rfl | ⟨value, hvalue, rfl⟩
  · decide
  · have hdigits : ∀ v < 16, (Nat.digitChar v).toNat < 0x80 := by decide
    exact hdigits value hvalue

/-! ## The value that is written -/

theorem plainElements_targetTexts (tgts : List ADDRINT) : PlainElements (targetTexts tgts) := by
  induction tgts with
  | nil => exact trivial
  | cons tgt tgts ih => exact ⟨isAscii_addressText tgt, ih⟩

/-- The name and the value of a member are those `SaveEdgesAsJSON` assigns. -/
def IsEdgeMember (order : TargetOrder) (m : EdgeMap) (member : List Char × Json Char) : Prop :=
  ∃ entry ∈ m.toMap.toList, member = edgeMember order entry

theorem mem_edgeMembers {order : TargetOrder} {m : EdgeMap} {member : List Char × Json Char} :
    member ∈ (edgeMembers order m).toList ↔ IsEdgeMember order m member := by
  have hdistinct : (m.toMap.toList.map (edgeMember order)).Pairwise
      fun a b => ¬ compare a.1 b.1 = .eq := by
    rw [List.pairwise_map]
    refine m.toMap.distinct_keys_toList.imp ?_
    intro a b hab heq
    rw [Std.compare_eq_iff_eq] at heq
    exact hab (Std.compare_eq_iff_eq.mpr (addressText_injective heq))
  obtain ⟨key, value⟩ := member
  rw [edgeMembers, mem_toList_ofList hdistinct, List.mem_map]
  constructor
  · rintro ⟨entry, hentry, heq⟩
    exact ⟨entry, hentry, heq.symm⟩
  · rintro ⟨entry, hentry, heq⟩
    exact ⟨entry, hentry, heq.symm⟩

theorem plainMembers_of_forall {members : List (List Char × Json Char)}
    (h : ∀ member ∈ members, IsAscii member.1 ∧ Plain member.2) : PlainMembers members := by
  induction members with
  | nil => exact trivial
  | cons member members ih =>
      have hmember := h member List.mem_cons_self
      exact ⟨hmember.1, hmember.2,
        ih fun other hother => h other (List.mem_cons_of_mem member hother)⟩

theorem plain_edgesJson (order : TargetOrder) (m : EdgeMap) : Plain (edgesJson order m) := by
  unfold edgesJson
  split
  · exact trivial
  · refine plainMembers_of_forall fun member hmember => ?_
    obtain ⟨entry, _, rfl⟩ := mem_edgeMembers.mp hmember
    exact ⟨isAscii_addressText entry.1, plainElements_targetTexts _⟩

/-- The byte order mark test does not touch a written file. -/
theorem skipBom_edgesText (order : TargetOrder) (m : EdgeMap) :
    skipBom (edgesText order m) = edgesText order m := by
  unfold edgesText edgesJson
  split
  · rfl
  · unfold dump
    split <;> rfl

/-- A written file is ASCII. -/
theorem isAscii_edgesText (order : TargetOrder) (m : EdgeMap) : IsAscii (edgesText order m) :=
  isAscii_append.mpr ⟨isAscii_dump 2 _ (plain_edgesJson order m) 0, by simp [IsAscii]⟩

/-- Any JSON decoder reads the written value and stops before the final newline. -/
theorem parse_edgesText {υ : Type} {d : Dialect υ} (hd : d.AsciiLawful) (order : TargetOrder)
    (m : EdgeMap) :
    parse d (edgesText order m) = some ((edgesJson order m).map d.raw, ['\n']) :=
  parse_dump hd 2 (plain_edgesJson order m) ['\n']

/-! ## The round trip -/

theorem loadTargets_targetTexts (src : ADDRINT) (tgts : List ADDRINT) :
    ∀ edgeMap : EdgeMap, ∃ loaded : EdgeMap,
      loadTargets src (targetTexts tgts) edgeMap = .ok loaded ∧
        ∀ s t, (s, t) ∈ loaded.edges ↔ (s, t) ∈ edgeMap.edges ∨ (s = src ∧ t ∈ tgts) := by
  induction tgts with
  | nil =>
      intro edgeMap
      exact ⟨edgeMap, rfl, by simp⟩
  | cons tgt tgts ih =>
      intro edgeMap
      obtain ⟨loaded, hload, hedges⟩ := ih (edgeMap.insertEdge src tgt)
      refine ⟨loaded, ?_, ?_⟩
      · simpa [targetTexts, loadTargets, stoull_addressText] using hload
      · intro s t
        rw [hedges, EdgeMap.edges_insertEdge, Finset.mem_insert, Prod.mk.injEq, List.mem_cons]
        tauto

/-- Loading a list of written members adds exactly their pairs. -/
theorem loadItems_edgeMembers (order : TargetOrder) (m : EdgeMap) :
    ∀ (members : List (List Char × Json Char)),
      (∀ member ∈ members, IsEdgeMember order m member) →
      ∀ edgeMap : EdgeMap, ∃ loaded : EdgeMap,
        loadItems members edgeMap = .ok loaded ∧
          ∀ s t, (s, t) ∈ loaded.edges ↔
            (s, t) ∈ edgeMap.edges ∨
              ∃ tgts, edgeMember order (s, tgts) ∈ members ∧ m.toMap[s]? = some tgts ∧
                t ∈ tgts := by
  intro members
  induction members with
  | nil =>
      intro _ edgeMap
      exact ⟨edgeMap, rfl, by simp⟩
  | cons member members ih =>
      intro hmembers edgeMap
      obtain ⟨⟨src, tgts⟩, hentry, rfl⟩ := hmembers member List.mem_cons_self
      have hsrc : m.toMap[src]? = some tgts :=
        ExtTreeMap.mem_toList_iff_getElem?_eq_some.mp hentry
      obtain ⟨middle, hmiddle, hmiddleEdges⟩ :=
        loadTargets_targetTexts src (order.list src tgts) edgeMap
      obtain ⟨loaded, hloaded, hloadedEdges⟩ :=
        ih (fun other hother => hmembers other (List.mem_cons_of_mem _ hother)) middle
      have hrange : rangeValues (edgeMember order (src, tgts)).2 =
          targetTexts (order.list src tgts) := by
        simp [rangeValues, items, edgeMember, List.map_map, Function.comp_def, List.zipIdx_map_fst]
      refine ⟨loaded, ?_, ?_⟩
      · have hkey : stoull 64 (edgeMember order (src, tgts)).1 = .ok src := stoull_addressText src
        simp only [loadItems, hkey, hrange, hmiddle]
        exact hloaded
      · intro s t
        rw [hloadedEdges, hmiddleEdges, order.mem_list]
        constructor
        · rintro ((h | ⟨rfl, ht⟩) | ⟨tgts', hmem, hget, ht⟩)
          · exact Or.inl h
          · exact Or.inr ⟨tgts, List.mem_cons_self, hsrc, ht⟩
          · exact Or.inr ⟨tgts', List.mem_cons_of_mem _ hmem, hget, ht⟩
        · rintro (h | ⟨tgts', hmem, hget, ht⟩)
          · exact Or.inl (Or.inl h)
          · rcases List.mem_cons.mp hmem with heq | hmem
            · have hs : s = src := addressText_injective (congrArg Prod.fst heq)
              subst hs
              rw [hsrc] at hget
              cases hget
              exact Or.inl (Or.inr ⟨rfl, ht⟩)
            · exact Or.inr ⟨tgts', hmem, hget, ht⟩

/-- Loading a written file adds exactly the edges it was written from. -/
theorem loadEdges_edgesText (order : TargetOrder) (m edgeMap : EdgeMap) :
    ∃ loaded : EdgeMap,
      loadEdgesFromJSON (some (edgesText order m)) edgeMap = .ok loaded ∧
        loaded.edges = edgeMap.edges ∪ m.edges := by
  have hparse : parse byteDialect (edgesText order m) = some (edgesJson order m, ['\n']) := by
    have hround := parse_edgesText byteDialect_asciiLawful order m
    have hraw : byteDialect.raw = id := rfl
    rw [hraw, map_id] at hround
    exact hround
  have hload : loadEdgesFromJSON (some (edgesText order m)) edgeMap =
      loadItems (items (edgesJson order m)) edgeMap := by
    simp [loadEdgesFromJSON, skipBom_edgesText, hparse, numbers_of_plain (plain_edgesJson order m)]
  rw [hload]
  by_cases hempty : m.toMap.isEmpty = true
  · have hm : m = .empty := EdgeMap.toMap_isEmpty_iff.mp hempty
    refine ⟨edgeMap, by simp [edgesJson, hempty, items, loadItems], ?_⟩
    rw [hm, EdgeMap.edges_empty, Finset.union_empty]
  · have hitems : items (edgesJson order m) = (edgeMembers order m).toList := by
      simp [edgesJson, hempty, items, ofList_toList]
    rw [hitems]
    obtain ⟨loaded, hloaded, hedges⟩ :=
      loadItems_edgeMembers order m _ (fun member h => mem_edgeMembers.mp h) edgeMap
    refine ⟨loaded, hloaded, ?_⟩
    ext ⟨s, t⟩
    have hm : (s, t) ∈ m.edges ↔ ∃ tgts, m.toMap[s]? = some tgts ∧ t ∈ tgts :=
      EdgeMap.mem_edges.trans EdgeMap.mem_targets_iff
    rw [hedges, Finset.mem_union, hm]
    constructor
    · rintro (h | ⟨tgts, _, hget, ht⟩)
      · exact Or.inl h
      · exact Or.inr ⟨tgts, hget, ht⟩
    · rintro (h | ⟨tgts, hget, ht⟩)
      · exact Or.inl h
      · refine Or.inr ⟨tgts, mem_edgeMembers.mpr ⟨(s, tgts), ?_, rfl⟩, hget, ht⟩
        exact ExtTreeMap.mem_toList_iff_getElem?_eq_some.mpr hget

/-! ## Loading adds the same edges to every map -/

/-- Loading the values of one source adds a set that does not depend on the map. -/
theorem loadTargets_adds {src : ADDRINT} {values : List (Json Char)} :
    ∀ {edgeMap loaded : EdgeMap}, loadTargets src values edgeMap = .ok loaded →
      ∃ added : Finset (ADDRINT × ADDRINT), loaded.edges = edgeMap.edges ∪ added ∧
        ∀ other : EdgeMap, ∃ merged : EdgeMap,
          loadTargets src values other = .ok merged ∧ merged.edges = other.edges ∪ added := by
  induction values with
  | nil =>
      intro edgeMap loaded h
      cases h
      exact ⟨∅, by simp, fun other => ⟨other, rfl, by simp⟩⟩
  | cons value values ih =>
      intro edgeMap loaded h
      cases value with
      | str text =>
          unfold loadTargets at h
          split at h
          · rename_i tgt htgt
            obtain ⟨added, hloaded, hother⟩ := ih h
            refine ⟨insert (src, tgt) added, ?_, ?_⟩
            · rw [hloaded, EdgeMap.edges_insertEdge, Finset.insert_union, Finset.union_insert]
            · intro other
              obtain ⟨merged, hmerged, hedges⟩ := hother (other.insertEdge src tgt)
              refine ⟨merged, ?_, ?_⟩
              · rw [loadTargets, htgt]
                exact hmerged
              · rw [hedges, EdgeMap.edges_insertEdge, Finset.insert_union, Finset.union_insert]
          · cases h
      | null | bool | num | arr | obj => cases h

theorem loadItems_adds {members : List (List Char × Json Char)} :
    ∀ {edgeMap loaded : EdgeMap}, loadItems members edgeMap = .ok loaded →
      ∃ added : Finset (ADDRINT × ADDRINT), loaded.edges = edgeMap.edges ∪ added ∧
        ∀ other : EdgeMap, ∃ merged : EdgeMap,
          loadItems members other = .ok merged ∧ merged.edges = other.edges ∪ added := by
  induction members with
  | nil =>
      intro edgeMap loaded h
      cases h
      exact ⟨∅, by simp, fun other => ⟨other, rfl, by simp⟩⟩
  | cons member members ih =>
      intro edgeMap loaded h
      obtain ⟨key, value⟩ := member
      unfold loadItems at h
      split at h
      · cases h
      · rename_i src hsrc
        split at h
        · cases h
        · rename_i middle hmiddle
          obtain ⟨first, hfirst, hfirstOther⟩ := loadTargets_adds hmiddle
          obtain ⟨second, hsecond, hsecondOther⟩ := ih h
          refine ⟨first ∪ second, ?_, ?_⟩
          · rw [hsecond, hfirst, Finset.union_assoc]
          · intro other
            obtain ⟨middle', hmiddle', hmiddleEdges⟩ := hfirstOther other
            obtain ⟨merged, hmerged, hmergedEdges⟩ := hsecondOther middle'
            refine ⟨merged, ?_, ?_⟩
            · simp only [loadItems, hsrc, hmiddle']
              exact hmerged
            · rw [hmergedEdges, hmiddleEdges, Finset.union_assoc]

/-- A file that decodes to `decoded` adds exactly these edges to any map it is merged
into. -/
theorem loadEdges_merges {file : Option (List Char)} {decoded : EdgeMap}
    (h : loadEdgesFromJSON file .empty = .ok decoded) (edgeMap : EdgeMap) :
    ∃ merged : EdgeMap, loadEdgesFromJSON file edgeMap = .ok merged ∧
      merged.edges = edgeMap.edges ∪ decoded.edges := by
  cases file with
  | none =>
      cases h
      exact ⟨edgeMap, rfl, by simp⟩
  | some text =>
      simp only [loadEdgesFromJSON] at h ⊢
      split at h
      · cases h
      · split at h
        · rename_i hfinite
          obtain ⟨added, hadded, hother⟩ := loadItems_adds h
          rw [EdgeMap.edges_empty, Finset.empty_union] at hadded
          rw [if_pos hfinite, hadded]
          exact hother edgeMap
        · cases h

/-- `LoadEdgesFromJSON` undoes `SaveEdgesAsJSON`. -/
theorem loadEdges_edgesText_empty (order : TargetOrder) (m : EdgeMap) :
    loadEdgesFromJSON (some (edgesText order m)) .empty = .ok m := by
  obtain ⟨loaded, hload, hedges⟩ := loadEdges_edgesText order m .empty
  rw [EdgeMap.edges_empty, Finset.empty_union] at hedges
  rw [hload, EdgeMap.eq_of_edges_eq hedges]

end Icflow.PinTool
