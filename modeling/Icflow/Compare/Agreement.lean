import Icflow.Compare.LoadPairs

set_option autoImplicit false

/-!
# The tool's writer and the comparison tool's reader

The C++ writer spells every address as `intBaseZero` reads it, in JSON that Python
decodes to the same value, so a nonempty edge map is read back exactly.  The text of
an empty map is `null`, which is not an object.
-/

namespace Icflow.Compare

open Std (ExtTreeMap)
open Icflow.Foundation
open Icflow.Foundation.Json
open Icflow.PinTool

/-! ## Paths -/

/-- The file name of a call result is the executable's name and the suffix. -/
theorem filename_icallPath (mainImageName : List Char) :
    filename (icallPath mainImageName) = filename mainImageName ++ icallSuffix := by
  have hsuffix : '/' ∉ icallSuffix := by decide
  have hslash := slash_notMem_filename mainImageName
  have hpath : icallPath mainImageName =
      parentPath mainImageName ++ '/' :: (filename mainImageName ++ icallSuffix) := by
    have hsplit : icallPath mainImageName = resultStem mainImageName ++ icallSuffix := rfl
    rw [hsplit, resultStem, List.append_assoc, List.cons_append]
  have hname : '/' ∉ filename mainImageName ++ icallSuffix := by
    rw [List.mem_append, not_or]
    exact ⟨hslash, hsuffix⟩
  rw [hpath, filename_append (parentPath mainImageName) hname]

theorem discover_icallPath (mainImageName bytes : List Char) :
    discoverIcallFiles (icallPath mainImageName) (some (.file bytes)) =
      .ok [(filename mainImageName ++ icallSuffix, icallPath mainImageName, .file bytes)] := by
  have hmatch : icallSuffix.isSuffixOf (filename (icallPath mainImageName)) = true := by
    rw [filename_icallPath, List.isSuffixOf_iff_suffix]
    exact List.suffix_append _ _
  rw [discoverIcallFiles, if_pos hmatch, filename_icallPath]

/-! ## Dictionaries -/

theorem dictInsert_of_notMem {dict : List (List Nat × Json Nat)} {key : List Nat}
    (hkey : ∀ entry ∈ dict, entry.1 ≠ key) (value : Json Nat) :
    dictInsert dict key value = dict ++ [(key, value)] := by
  unfold dictInsert
  rw [if_neg]
  simpa using fun value' hmem => hkey (key, value') hmem rfl

theorem foldl_dictInsert_of_distinct (members : List (List Nat × Json Nat)) :
    ∀ dict : List (List Nat × Json Nat),
      (dict ++ members).Pairwise (fun a b => a.1 ≠ b.1) →
      members.foldl (fun dict member => dictInsert dict member.1 member.2) dict =
        dict ++ members := by
  induction members with
  | nil =>
      intro dict _
      simp
  | cons member members ih =>
      intro dict hdistinct
      have hnew : ∀ entry ∈ dict, entry.1 ≠ member.1 := by
        intro entry hentry
        exact (List.pairwise_append.mp hdistinct).2.2 entry hentry member List.mem_cons_self
      have hshift : dict ++ [(member.1, member.2)] ++ members = dict ++ member :: members := by
        simp
      rw [List.foldl_cons, dictInsert_of_notMem hnew, ih _ (hshift ▸ hdistinct), hshift]

/-- Distinct names are kept as they stand. -/
theorem dictOf_of_distinct {members : List (List Nat × Json Nat)}
    (hdistinct : members.Pairwise fun a b => a.1 ≠ b.1) : dictOf members = members :=
  foldl_dictInsert_of_distinct members [] hdistinct

/-! ## Addresses -/

/-- The Python string of an ASCII text. -/
def pyStr (text : List Char) : List Nat := text.map Char.toNat

theorem intOfStr_pyStr (python : Interpreter) {text : List Char} (h : IsAscii text) :
    intOfStr python (pyStr text) = intLiteral python text := by
  have hascii : (pyStr text).all (· < 128) = true := by
    rw [List.all_eq_true]
    intro point hpoint
    obtain ⟨c, hc, rfl⟩ := List.mem_map.mp hpoint
    exact decide_eq_true (h c hc)
  have hback : (pyStr text).map Char.ofNat = text := by
    simp [pyStr, List.map_map, Function.comp_def, Char.ofNat_toNat]
  rw [intOfStr, if_pos hascii, hback]

theorem parseAddress_addressText (python : Interpreter) (address : ADDRINT)
    (label : AddressLabel) (path : List Char) :
    parseAddress python (.str (pyStr (addressText address))) label path =
      .ok (address.toNat : Int) := by
  have hint : intOfStr python (pyStr (addressText address)) = some (address.toNat : Int) := by
    have hprefix : (addressText address).any Char.isAlpha = true :=
      List.any_eq_true.mpr ⟨'x', List.mem_cons_of_mem _ List.mem_cons_self, by decide⟩
    rw [intOfStr_pyStr python (isAscii_addressText address), intLiteral, hprefix, Bool.true_or,
      if_pos rfl]
    exact intBaseZero_hexText address.toNat
  simp [parseAddress, hint]

/-! ## The loops on a written file -/

/-- The pair of an edge. -/
def pairOf (identity : List Char) (edge : ADDRINT × ADDRINT) : Pair :=
  (identity, (edge.1.toNat : Int), (edge.2.toNat : Int))

theorem addTargets_targetTexts (python : Interpreter) (identity path : List Char)
    (src : ADDRINT) (tgts : List ADDRINT) :
    ∀ pairs : Finset Pair,
      addTargets python identity path (src.toNat : Int)
          ((targetTexts tgts).map (map Char.toNat)) pairs =
        .ok (pairs ∪ (tgts.map fun tgt => pairOf identity (src, tgt)).toFinset) := by
  induction tgts with
  | nil =>
      intro pairs
      simp [targetTexts, addTargets]
  | cons tgt tgts ih =>
      intro pairs
      have hcons : (targetTexts (tgt :: tgts)).map (map Char.toNat) =
          .str (pyStr (addressText tgt)) :: (targetTexts tgts).map (map Char.toNat) := rfl
      rw [hcons, addTargets, parseAddress_addressText]
      simp only
      rw [ih]
      congr 1
      ext pair
      simp only [Finset.mem_union, Finset.mem_insert, List.mem_toFinset, List.map_cons,
        List.mem_cons, pairOf]
      tauto

/-- The decoded form of a member the writer assigned. -/
def decodedMember (member : List Char × Json Char) : List Nat × Json Nat :=
  (pyStr member.1, map Char.toNat member.2)

/-- The loop over written members adds the pairs of their entries. -/
theorem addItems_edgeMembers (python : Interpreter) (identity path : List Char)
    (order : TargetOrder) (m : EdgeMap) (members : List (List Char × Json Char)) :
    (∀ member ∈ members, IsEdgeMember order m member) →
    ∀ pairs : Finset Pair, ∃ pairs' : Finset Pair,
      addItems python identity path (members.map decodedMember) pairs = .ok pairs' ∧
        ∀ pair, pair ∈ pairs' ↔ pair ∈ pairs ∨
          ∃ entry ∈ m.toMap.toList, edgeMember order entry ∈ members ∧
            ∃ tgt ∈ entry.2, pairOf identity (entry.1, tgt) = pair := by
  induction members with
  | nil =>
      intro _ pairs
      exact ⟨pairs, rfl, by simp⟩
  | cons member members ih =>
      intro hmembers pairs
      obtain ⟨⟨src, tgts⟩, hentry, rfl⟩ := hmembers member List.mem_cons_self
      obtain ⟨pairs', hrest, hmem⟩ :=
        ih (fun other hother => hmembers other (List.mem_cons_of_mem _ hother))
          (pairs ∪ ((order.list src tgts).map fun tgt => pairOf identity (src, tgt)).toFinset)
      refine ⟨pairs', ?_, ?_⟩
      · have hcons : (edgeMember order (src, tgts) :: members).map decodedMember =
            (pyStr (addressText src),
              .arr ((targetTexts (order.list src tgts)).map (map Char.toNat))) ::
              members.map decodedMember := by
          simp [edgeMember, decodedMember, map]
        rw [hcons, addItems, parseAddress_addressText]
        simp only [addTargets_targetTexts]
        exact hrest
      · intro pair
        rw [hmem, Finset.mem_union, List.mem_toFinset, List.mem_map]
        simp only [order.mem_list]
        constructor
        · rintro ((h | ⟨tgt, htgt, rfl⟩) | ⟨entry, hentry', hmember, htargets⟩)
          · exact Or.inl h
          · exact Or.inr ⟨(src, tgts), hentry, List.mem_cons_self, tgt, htgt, rfl⟩
          · exact Or.inr ⟨entry, hentry', List.mem_cons_of_mem _ hmember, htargets⟩
        · rintro (h | ⟨⟨src', tgts'⟩, hentry', hmember, htargets⟩)
          · exact Or.inl (Or.inl h)
          · rcases List.mem_cons.mp hmember with heq | hmember
            · have hsrc : src' = src := addressText_injective (congrArg Prod.fst heq)
              subst hsrc
              rw [ExtTreeMap.mem_toList_iff_getElem?_eq_some] at hentry hentry'
              have htgts : tgts = tgts' := Option.some.inj (hentry.symm.trans hentry')
              subst htgts
              exact Or.inl (Or.inr htargets)
            · exact Or.inr ⟨(src', tgts'), hentry', hmember, htargets⟩

/-! ## Reading a written file -/

/-- The members of a written object have distinct names. -/
theorem distinct_edgeMembers (order : TargetOrder) (m : EdgeMap) :
    ((edgeMembers order m).toList.map decodedMember).Pairwise fun a b => a.1 ≠ b.1 := by
  rw [List.pairwise_map]
  refine (edgeMembers order m).distinct_keys_toList.imp ?_
  intro a b hab heq
  refine hab (Std.compare_eq_iff_eq.mpr ?_)
  exact List.map_injective_iff.mpr (fun c c' h => Char.toNat_inj.mp h) heq

/-- What the comparison tool decodes a written file to. -/
theorem parseStrict_edgesText (order : TargetOrder) (m : EdgeMap) :
    parseStrict codePointDialect (edgesText order m) =
      some ((edgesJson order m).map Char.toNat) := by
  have hend : (scan codePointDialect ['\n']).1 = .endOfInput := rfl
  rw [parseStrict, parse_edgesText codePointDialect_asciiLawful order m]
  simp only [hend]
  rfl

/-- Targets are texts. -/
theorem flat_targetTexts (tgts : List ADDRINT) :
    depthElements ((targetTexts tgts).map (map Char.toNat)) = 0 ∧
      numbersElements ((targetTexts tgts).map (map Char.toNat)) = [] := by
  induction tgts with
  | nil => exact ⟨rfl, rfl⟩
  | cons tgt tgts ih =>
      have hcons : (targetTexts (tgt :: tgts)).map (map Char.toNat) =
          .str (pyStr (addressText tgt)) :: (targetTexts tgts).map (map Char.toNat) := rfl
      rw [hcons, depthElements, numbersElements, ih.1, ih.2]
      exact ⟨rfl, rfl⟩

/-- A written document holds no number, and lists of targets only. -/
theorem flat_edgeMembers {order : TargetOrder} {m : EdgeMap} {members : List (List Char × Json Char)}
    (h : ∀ member ∈ members, IsEdgeMember order m member) :
    depthMembers (members.map decodedMember) ≤ 1 ∧
      numbersMembers (members.map decodedMember) = [] := by
  induction members with
  | nil => exact ⟨Nat.zero_le _, rfl⟩
  | cons member members ih =>
      obtain ⟨hmember, hrest⟩ := List.forall_mem_cons.mp h
      obtain ⟨⟨src, tgts⟩, _, rfl⟩ := hmember
      obtain ⟨hdepth, hnumbers⟩ := ih hrest
      obtain ⟨htargets, hlexemes⟩ := flat_targetTexts (order.list src tgts)
      have hdecoded : decodedMember (edgeMember order (src, tgts)) =
          (pyStr (addressText src),
            .arr ((targetTexts (order.list src tgts)).map (map Char.toNat))) := by
        simp [edgeMember, decodedMember, map]
      rw [List.map_cons, hdecoded, depthMembers, numbersMembers, depth, numbers, htargets, hlexemes,
        hnumbers]
      exact ⟨max_le (Nat.le_refl 1) hdepth, rfl⟩

theorem flat_edgesJson (order : TargetOrder) (m : EdgeMap) :
    ((edgesJson order m).map Char.toNat).depth ≤ 2 ∧
      ((edgesJson order m).map Char.toNat).numbers = [] := by
  rw [edgesJson]
  split
  · exact ⟨Nat.zero_le _, rfl⟩
  · have hmembers : ∀ member ∈ (edgeMembers order m).toList, IsEdgeMember order m member :=
      fun member h => mem_edgeMembers.mp h
    obtain ⟨hdepth, hnumbers⟩ := flat_edgeMembers hmembers
    have hmap : (Json.obj (edgeMembers order m).toList).map Char.toNat =
        .obj ((edgeMembers order m).toList.map decodedMember) := by
      rw [map, mapMembers_eq]
      rfl
    rw [hmap, depth, numbers, hnumbers]
    exact ⟨Nat.succ_le_succ hdepth, rfl⟩

/-- Every interpreter loads a written document. -/
theorem jsonLoads_edgesText (python : Interpreter) (path : List Char) (order : TargetOrder)
    (m : EdgeMap) :
    jsonLoads python path (edgesText order m) = .ok ((edgesJson order m).map Char.toNat) := by
  obtain ⟨rest, hparse⟩ := parse_of_parseStrict (parseStrict_edgesText order m)
  obtain ⟨hdepth, hnumbers⟩ := flat_edgesJson order m
  have hshows : python.limits.Shows ((edgesJson order m).map Char.toNat).depth
      ((edgesJson order m).map Char.toNat).numbers
      (firstExcess codePointDialect python.limits (edgesText order m)) := firstExcess_shows hparse
  unfold jsonLoads
  cases hexcess : firstExcess codePointDialect python.limits (edgesText order m) with
  | none => simp only [parseStrict_edgesText]
  | some excess =>
      rw [hexcess] at hshows
      cases excess with
      | nesting => exact absurd (hdepth.trans python.two_le_maxNesting) (not_le.mpr hshows)
      | number =>
          obtain ⟨lexeme, hlexeme, _⟩ := hshows
          rw [hnumbers] at hlexeme
          cases hlexeme

theorem readText_edgesText (path : List Char) (order : TargetOrder) (m : EdgeMap) :
    readText path (.file (edgesText order m)) = .ok (edgesText order m) := by
  simp [readText, utf8Decode_of_isAscii (isAscii_edgesText order m)]

/-- A written nonempty map is read back as its pairs. -/
theorem addFile_edgesText (python : Interpreter) (identity path : List Char)
    (order : TargetOrder) {m : EdgeMap} (hm : m ≠ .empty) :
    addFile python identity path (.file (edgesText order m)) ∅ =
      .ok (m.edges.image (pairOf identity)) := by
  have hempty : ¬ m.toMap.isEmpty = true := fun h => hm (EdgeMap.toMap_isEmpty_iff.mp h)
  have hjson : (edgesJson order m).map Char.toNat =
      .obj ((edgeMembers order m).toList.map decodedMember) := by
    rw [edgesJson, if_neg hempty, map, mapMembers_eq]
    rfl
  obtain ⟨pairs, hpairs, hmem⟩ := addItems_edgeMembers python identity path order m
    (edgeMembers order m).toList (fun member h => mem_edgeMembers.mp h) ∅
  have hread : addFile python identity path (.file (edgesText order m)) ∅ = .ok pairs := by
    simp only [addFile, readText_edgesText, jsonLoads_edgesText, hjson,
      dictOf_of_distinct (distinct_edgeMembers order m)]
    exact hpairs
  rw [hread]
  congr 1
  ext pair
  rw [hmem, Finset.mem_image]
  constructor
  · rintro (h | ⟨entry, hentry, _, tgt, htgt, rfl⟩)
    · simp at h
    · refine ⟨(entry.1, tgt), EdgeMap.mem_edges.mpr (EdgeMap.mem_targets_iff.mpr ?_), rfl⟩
      exact ⟨entry.2, ExtTreeMap.mem_toList_iff_getElem?_eq_some.mp hentry, htgt⟩
  · rintro ⟨⟨src, tgt⟩, hedge, rfl⟩
    obtain ⟨tgts, hget, htgt⟩ := EdgeMap.mem_targets_iff.mp (EdgeMap.mem_edges.mp hedge)
    have hentry : (src, tgts) ∈ m.toMap.toList :=
      ExtTreeMap.mem_toList_iff_getElem?_eq_some.mpr hget
    exact Or.inr ⟨(src, tgts), hentry, mem_edgeMembers.mpr ⟨(src, tgts), hentry, rfl⟩,
      tgt, htgt, rfl⟩

/-- The text of the empty map is `null`, which is not an object. -/
theorem addFile_edgesText_empty (python : Interpreter) (identity path : List Char)
    (order : TargetOrder) (pairs : Finset Pair) :
    addFile python identity path (.file (edgesText order .empty)) pairs =
      .error (.notAnObject path) := by
  have hjson : (edgesJson order .empty).map Char.toNat = .null := rfl
  simp only [addFile, readText_edgesText, jsonLoads_edgesText, hjson]

/-- Writing `m` as the call result of an executable and reading that file yields
exactly the pairs of `m` under the file's name. -/
def ReadBack (python : Interpreter) (order : TargetOrder) (mainImageName : List Char)
    (m : EdgeMap) : Prop :=
  loadPairs python (icallPath mainImageName) (some (.file (edgesText order m))) =
    .ok (m.edges.image (pairOf (filename mainImageName ++ icallSuffix)),
      [filename mainImageName ++ icallSuffix])

/-- The writer and the reader agree on an edge map if and only if it is not empty. -/
theorem readBack_iff (python : Interpreter) (order : TargetOrder) (mainImageName : List Char)
    (m : EdgeMap) : ReadBack python order mainImageName m ↔ m ≠ .empty := by
  unfold ReadBack loadPairs
  rw [discover_icallPath]
  simp only [addFiles]
  constructor
  · rintro h rfl
    rw [addFile_edgesText_empty] at h
    cases h
  · intro hm
    rw [addFile_edgesText python _ _ order hm]
    rfl

/-- The file of a program that made no indirect call is rejected. -/
theorem not_readBack_empty :
    ¬ ∀ (python : Interpreter) (order : TargetOrder) (mainImageName : List Char) (m : EdgeMap),
        ReadBack python order mainImageName m := by
  intro h
  have hread := h asciiPython .ascending "/t/p".toList .empty
  unfold ReadBack loadPairs at hread
  rw [discover_icallPath] at hread
  simp only [addFiles, addFile_edgesText_empty] at hread
  cases hread

end Icflow.Compare
