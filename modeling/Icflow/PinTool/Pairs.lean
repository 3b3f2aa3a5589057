import Icflow.PinTool.Accumulation
import Icflow.PinTool.Readability

set_option autoImplicit false

/-!
# The pairs of a result file

`pairsOf` is what a reader gets from a file, whatever has become of it.  A process of
the tool adds nothing to a file but what it observed and what it found there
(`loadEdges_adds`), and a cut-off document has no pairs but those of the whole one.
-/

namespace Icflow.PinTool

open Icflow.Foundation
open Icflow.Foundation.Json

/-- The pairs that `LoadEdgesFromJSON` gets from a file; none when it throws. -/
def pairsOf (file : Option (List Char)) : Set (ADDRINT × ADDRINT) :=
  {edge | ∃ m : EdgeMap, loadEdgesFromJSON file .empty = .ok m ∧ edge ∈ m.edges}

/-- Loading a file into a map adds the pairs of the file. -/
theorem loadEdges_adds {file : Option (List Char)} {edgeMap loaded : EdgeMap}
    (h : loadEdgesFromJSON file edgeMap = .ok loaded) {edge : ADDRINT × ADDRINT}
    (hedge : edge ∈ loaded.edges) : edge ∈ edgeMap.edges ∨ edge ∈ pairsOf file := by
  cases file with
  | none =>
      cases h
      exact Or.inl hedge
  | some text =>
      simp only [loadEdgesFromJSON] at h
      split at h
      · cases h
      · rename_i value rest hparse
        split at h
        · rename_i hfinite
          obtain ⟨added, hadded, hother⟩ := loadItems_adds h
          obtain ⟨decoded, hdecoded, hedges⟩ := hother .empty
          rw [hadded] at hedge
          rcases Finset.mem_union.mp hedge with hold | hnew
          · exact Or.inl hold
          · refine Or.inr ⟨decoded, ?_, ?_⟩
            · simp only [loadEdgesFromJSON, hparse, if_pos hfinite]
              exact hdecoded
            · rw [hedges, EdgeMap.edges_empty, Finset.empty_union]
              exact hnew
        · cases h

theorem pairsOf_none : pairsOf none = ∅ := by
  apply Set.eq_empty_of_forall_notMem
  rintro edge ⟨m, hload, hedge⟩
  cases hload
  rw [EdgeMap.edges_empty] at hedge
  cases hedge

theorem pairsOf_edgesText (order : TargetOrder) (m : EdgeMap) :
    pairsOf (some (edgesText order m)) = ↑m.edges := by
  ext edge
  constructor
  · rintro ⟨loaded, hload, hedge⟩
    rw [loadEdges_edgesText_empty] at hload
    cases hload
    exact hedge
  · intro hedge
    exact ⟨m, loadEdges_edgesText_empty _ _, hedge⟩

/-- A document that is cut off has no other pairs than the whole one. -/
theorem mem_of_mem_pairsOf_take {order : TargetOrder} {m : EdgeMap} {count : Nat}
    {edge : ADDRINT × ADDRINT} (h : edge ∈ pairsOf (some ((edgesText order m).take count))) :
    edge ∈ m.edges := by
  obtain ⟨decoded, hload, hedge⟩ := h
  by_cases hcut : count + 1 < (edgesText order m).length
  · rw [loadEdgesFromJSON, parse_take_edgesText order m hcut] at hload
    cases hload
  · have hwhole := (load_take_edgesText order m (Nat.le_of_not_lt hcut)).2
    rw [hwhole] at hload
    cases hload
    exact hedge

/-- A script is no result file. -/
theorem pairsOf_script {text : List Char} (h : text.head? = some '#') :
    pairsOf (some text) = ∅ := by
  cases text with
  | nil => cases h
  | cons c rest =>
      obtain rfl : c = '#' := Option.some.inj h
      have hbom : skipBom ('#' :: rest) = '#' :: rest := rfl
      have htoken : tokenAt byteDialect '#' rest = (.error, []) := rfl
      have hparse : parse byteDialect (skipBom ('#' :: rest)) = none := by
        rw [hbom, parse, run_cons byteDialect _ (by decide), htoken]
        rfl
      apply Set.eq_empty_of_forall_notMem
      rintro edge ⟨m, hload, _⟩
      rw [loadEdgesFromJSON, hparse] at hload
      cases hload

/-! ## The characters of a result file -/

theorem hash_notMem_escapeChar_hex {value : Nat} (hvalue : value < 16) :
    '#' ∉ escapeChar (Nat.digitChar value) := by
  have hdigits : ∀ v < 16, '#' ∉ escapeChar (Nat.digitChar v) := by decide
  exact hdigits value hvalue

theorem hash_notMem_addressText (address : ADDRINT) :
    '#' ∉ (addressText address).flatMap escapeChar := by
  intro h
  obtain ⟨c, hc, hhash⟩ := List.mem_flatMap.mp h
  rcases mem_hexText hc with rfl | ⟨value, hvalue, rfl⟩
  · exact absurd hhash (by decide)
  · exact hash_notMem_escapeChar_hex hvalue hhash

theorem hash_notMem_targetTexts (tgts : List ADDRINT) :
    '#' ∉ leafCharsElements (targetTexts tgts) := by
  induction tgts with
  | nil => exact List.not_mem_nil
  | cons tgt tgts ih =>
      intro h
      rcases List.mem_append.mp h with hfirst | hrest
      · exact hash_notMem_addressText tgt hfirst
      · exact ih hrest

theorem hash_notMem_members {members : List (List Char × Json Char)}
    (h : ∀ member ∈ members, '#' ∉ member.1.flatMap escapeChar ∧ '#' ∉ leafChars member.2) :
    '#' ∉ leafCharsMembers members := by
  induction members with
  | nil => exact List.not_mem_nil
  | cons member members ih =>
      intro hmem
      have hmember := h member List.mem_cons_self
      rcases List.mem_append.mp hmem with hname | hmem
      · exact hmember.1 hname
      · rcases List.mem_append.mp hmem with hvalue | hrest
        · exact hmember.2 hvalue
        · exact ih (fun other hother => h other (List.mem_cons_of_mem member hother)) hrest

/-- A result file has no comment sign. -/
theorem hash_notMem_edgesText (order : TargetOrder) (m : EdgeMap) : '#' ∉ edgesText order m := by
  have hleaves : '#' ∉ leafChars (edgesJson order m) := by
    unfold edgesJson
    split
    · exact List.not_mem_nil
    · apply hash_notMem_members
      intro member hmember
      obtain ⟨entry, _, rfl⟩ := mem_edgeMembers.mp hmember
      exact ⟨hash_notMem_addressText entry.1, hash_notMem_targetTexts _⟩
  have hpunctuation : ∀ c ∈ punctuation, c ≠ '#' := forall_punctuation (by decide)
  have hdump := forall_dump hpunctuation 2 (edgesJson order m)
    (fun c hc heq => hleaves (heq ▸ hc)) 0
  intro h
  rcases List.mem_append.mp h with hdumped | hend
  · exact hdump '#' hdumped rfl
  · exact absurd (List.mem_singleton.mp hend) (by decide)

/-- A result file, cut off or not, does not start like an ELF file. -/
theorem head_take_edgesText (order : TargetOrder) (m : EdgeMap) (count : Nat) :
    ((edgesText order m).take count).head? ≠ some '\x7f' := by
  cases count with
  | zero =>
      intro h
      cases h
  | succ count =>
      by_cases hm : m = .empty
      · subst hm
        rw [edgesText_empty, List.take_succ_cons, List.head?_cons]
        decide
      · obtain ⟨tail, htail⟩ := edgesText_nonempty order hm
        rw [htail, List.take_succ_cons, List.head?_cons]
        decide

/-- The text of an empty map is longer than an empty object, too. -/
theorem two_lt_length_edgesText (order : TargetOrder) (m : EdgeMap) :
    2 < (edgesText order m).length := by
  by_cases hm : m = .empty
  · subst hm
    rw [edgesText_empty]
    decide
  · have hempty : ¬ m.toMap.isEmpty = true := fun h => hm (EdgeMap.toMap_isEmpty_iff.mp h)
    rw [edgesText, edgesJson, if_neg hempty, dump]
    split
    · decide
    · simp only [List.length_append, List.length_cons, List.length_nil]
      omega

/-! ## What a process leaves -/

/-- Where the tool puts the results of a kind: calls are `true`. -/
def resultPath (kind : Bool) (mainImageName : List Char) : List Char :=
  if kind then icallPath mainImageName else ijumpPath mainImageName

theorem loadEdgesAt_adds {access : Access} {files : Files} {path : List Char}
    {edgeMap loaded : EdgeMap} (h : loadEdgesAt access files path edgeMap = .ok loaded)
    {edge : ADDRINT × ADDRINT} (hedge : edge ∈ loaded.edges) :
    edge ∈ edgeMap.edges ∨ edge ∈ pairsOf (files path) := by
  unfold loadEdgesAt at h
  split at h
  · exact loadEdges_adds h hedge
  · cases h
    exact Or.inl hedge

/-- A file that `Fini` writes holds what was recorded and what was there. -/
theorem fini_saves {jumpOrder callOrder : TargetOrder} {access : Access} {tool : ToolState}
    {files files' : Files} (h : fini jumpOrder callOrder access tool files = .ok files')
    (kind : Bool) (hwritable : access.writable (resultPath kind tool.mainImageName) = true) :
    ∃ order m, files' (resultPath kind tool.mainImageName) = some (edgesText order m) ∧
      ∀ edge ∈ m.edges, edge ∈ tool.edgesOf kind ∨
        edge ∈ pairsOf (files (resultPath kind tool.mainImageName)) := by
  simp only [fini] at h
  split at h
  · cases h
  · rename_i jumps hjumps
    split at h
    · cases h
    · rename_i calls hcalls
      obtain rfl := Except.ok.inj h
      cases kind with
      | true =>
          refine ⟨callOrder, calls, ?_, fun edge hedge => loadEdgesAt_adds hcalls hedge⟩
          have hpath : resultPath true tool.mainImageName = icallPath tool.mainImageName := rfl
          rw [hpath] at hwritable ⊢
          exact saveEdgesAsJSON_self hwritable _ _
      | false =>
          refine ⟨jumpOrder, jumps, ?_, fun edge hedge => loadEdgesAt_adds hjumps hedge⟩
          have hpath : resultPath false tool.mainImageName = ijumpPath tool.mainImageName := rfl
          have hkept : ∀ files : Files,
              saveEdgesAsJSON callOrder access (icallPath tool.mainImageName) calls files
                (ijumpPath tool.mainImageName) = files (ijumpPath tool.mainImageName) := by
            intro files
            unfold saveEdgesAsJSON
            split
            · exact Function.update_of_ne (ijumpPath_ne_icallPath _) _ _
            · rfl
          rw [hpath] at hwritable ⊢
          rw [hkept]
          exact saveEdgesAsJSON_self hwritable _ _

/-- A file that a run writes holds what the run observed and what was there. -/
theorem execute_saves {run : Run} {mainImageName : List Char} {files files' : Files}
    (h : run.execute mainImageName files = .ok files') (kind : Bool)
    (hwritable : run.access.writable (resultPath kind mainImageName) = true) :
    ∃ order m, files' (resultPath kind mainImageName) = some (edgesText order m) ∧
      ∀ edge ∈ m.edges,
        run.Observes kind edge ∨ edge ∈ pairsOf (files (resultPath kind mainImageName)) := by
  have hname : (recordAll run.events (run.start mainImageName)).mainImageName = mainImageName :=
    recordAll_mainImageName run.events (run.start mainImageName)
  have hsaves := fini_saves h kind (by rw [hname]; exact hwritable)
  rw [hname] at hsaves
  obtain ⟨order, m, hfile, hedges⟩ := hsaves
  refine ⟨order, m, hfile, ?_⟩
  intro edge hedge
  rcases hedges edge hedge with hobserved | hold
  · exact Or.inl ((run.mem_edgesOf mainImageName kind edge).mp hobserved)
  · exact Or.inr hold

end Icflow.PinTool
