import Icflow.Collect.Saving
import Icflow.Collect.ToolRun

set_option autoImplicit false

/-!
# Which results are useful

`-size +2c` is there to pass over results without a pair.  `ResultTree` is a tree whose
results `SaveEdgesAsJSON` wrote for wrapped executables, each of them restored or not.
-/

namespace Icflow.Collect

open Icflow.Foundation
open Icflow.Wrap
open Icflow.PinTool

/-- The executable of `x`, behind its wrapper or restored. -/
inductive Original (fs : FileSystem) (x : Path) (bytes : List Char) : Prop where
  | wrapped (mode : Nat) (hbackup : fs (orig x) = some (.file bytes mode))
      (hwrapper : IsWrapper (fs x)) : Original fs x bytes
  | restored (mode : Nat) (hfree : fs (orig x) = none) (hself : fs x = some (.file bytes mode)) :
      Original fs x bytes

/-- A file below the directory that has the name of a result of this kind. -/
def ResultFile (source : Path) (fs : FileSystem) (path : Path) (kind : Bool)
    (content : List Char) : Prop :=
  inTree source path = true ∧ resultKind path = some kind ∧
    ∃ mode, fs path = some (.file content mode)

/-- The result files are what `SaveEdgesAsJSON` wrote for wrapped ELF files. -/
structure ResultTree (source : Path) (fs : FileSystem) : Prop where
  written : ∀ path kind content, ResultFile source fs path kind content →
    ∃ x bytes order m, IsCanonical (orig x) ∧ path = resultPath kind (orig x) ∧
      content = edgesText order m ∧ Original fs x bytes ∧ bytes.head? = some '\x7f'

section Useful

variable (source repositoryDir packageOutput : Path) (fs : FileSystem) (found : List Path)

/-- A file with this content is copied from the path. -/
def IsCopied (path : Path) (content : List Char) : Prop :=
  ⟨destination repositoryDir packageOutput path, content⟩ ∈
    artifactFiles repositoryDir packageOutput fs found

/-- Exactly the results that have a pair are copied, each with its executable, and no
wrapper script is copied. -/
structure CollectsUseful : Prop where
  selected : ∀ path kind content m, ResultFile source fs path kind content →
    loadEdgesFromJSON (some content) .empty = .ok m →
      (IsCopied repositoryDir packageOutput fs found path content ↔ m ≠ .empty)
  binary : ∀ path kind content x bytes, ResultFile source fs path kind content →
    IsCopied repositoryDir packageOutput fs found path content →
      IsCanonical (orig x) → path = resultPath kind (orig x) → Original fs x bytes →
        IsCopied repositoryDir packageOutput fs found (if fs (orig x) = none then x else orig x)
          bytes
  noWrapper : ∀ file ∈ artifactFiles repositoryDir packageOutput fs found,
    ∀ mode, ¬ IsWrapper (some (.file file.content mode))

end Useful

section Selection

variable {source repositoryDir packageOutput : Path} {fs : FileSystem} {found : List Path}

theorem Original.file {x : Path} {bytes : List Char} (h : Original fs x bytes) :
    ∃ mode, fs (orig x) = some (.file bytes mode) ∨
      fs (orig x) = none ∧ fs x = some (.file bytes mode) := by
  cases h with
  | wrapped mode hbackup _ => exact ⟨mode, Or.inl hbackup⟩
  | restored mode hfree hself => exact ⟨mode, Or.inr ⟨hfree, hself⟩⟩

/-- Every result file is longer than two bytes. -/
theorem ResultTree.collected (h : ResultTree source fs) {path : Path} {kind : Bool}
    {content : List Char} (hresult : ResultFile source fs path kind content) :
    Collected source fs path := by
  obtain ⟨x, bytes, order, m, _, _, rfl, _, _⟩ := h.written path kind content hresult
  obtain ⟨hin, hkind, mode, hfile⟩ := hresult
  refine ⟨hin, ?_, _, mode, hfile, two_lt_length_edgesText order m⟩
  rw [hkind]
  rfl

/-- A result file is copied. -/
theorem ResultTree.copied (h : ResultTree source fs) (repositoryDir packageOutput : Path)
    (hfound : ∀ path, path ∈ found ↔ Collected source fs path) {path : Path} {kind : Bool}
    {content : List Char} (hresult : ResultFile source fs path kind content) :
    IsCopied repositoryDir packageOutput fs found path content := by
  have hcollected := h.collected hresult
  obtain ⟨text, hartifact⟩ := artifactOf_eq repositoryDir packageOutput hcollected
  obtain ⟨_, _, mode, hfile⟩ := hresult
  have htext : content = text := by
    rw [artifactOf, readRegular_file hfile] at hartifact
    exact congrArg (fun artifact => artifact.result.content) (Option.some.inj hartifact)
  rw [htext]
  exact mem_artifactFiles ((hfound path).mpr hcollected) hartifact List.mem_cons_self

/-- The binary of a result is its executable, wrapped or restored. -/
theorem Original.readRegular_binary {x : Path} {bytes : List Char} (h : Original fs x bytes)
    (hcanonical : IsCanonical (orig x)) (kind : Bool) :
    readRegular fs (binaryOf fs (resultPath kind (orig x))) = some bytes := by
  obtain ⟨mode, hfile⟩ := h.file
  rw [binaryOf_of_base (baseOf_resultPath hcanonical kind) hfile]
  rcases hfile with hbackup | ⟨hnone, hself⟩
  · rw [if_neg (by rw [hbackup]; simp)]
    exact readRegular_file hbackup
  · rw [if_pos hnone]
    exact readRegular_file hself

/-- And so is its executable, wrapped or restored. -/
theorem ResultTree.copied_binary (h : ResultTree source fs) (repositoryDir packageOutput : Path)
    (hfound : ∀ path, path ∈ found ↔ Collected source fs path) {kind : Bool}
    {content bytes : List Char} {x : Path} (hcanonical : IsCanonical (orig x))
    (hresult : ResultFile source fs (resultPath kind (orig x)) kind content)
    (horiginal : Original fs x bytes) :
    IsCopied repositoryDir packageOutput fs found (if fs (orig x) = none then x else orig x)
      bytes := by
  have hcollected := h.collected hresult
  obtain ⟨text, hartifact⟩ := artifactOf_eq repositoryDir packageOutput hcollected
  obtain ⟨mode, hfile⟩ := horiginal.file
  have hbinary := binaryOf_of_base (baseOf_resultPath hcanonical kind) hfile
  have hread := horiginal.readRegular_binary hcanonical kind
  rw [hread, hbinary, Option.map_some] at hartifact
  exact mem_artifactFiles ((hfound _).mpr hcollected) hartifact
    (List.mem_cons_of_mem _ (List.mem_singleton.mpr rfl))

/-- A file that starts with the ELF magic is no wrapper script, and neither is a result. -/
theorem not_isWrapper_of_head {content : List Char} (mode : Nat)
    (h : content.head? = some '\x7f' ∨ ∃ order m, content = edgesText order m) :
    ¬ IsWrapper (some (.file content mode)) := by
  rintro ⟨_, _, hnode, _, hhead⟩
  obtain ⟨rfl, _⟩ := Node.file.inj (Option.some.inj hnode)
  rcases h with helf | ⟨order, m, rfl⟩
  · rw [helf] at hhead
    exact absurd hhead (by decide)
  · exact hash_notMem_edgesText order m (List.mem_of_mem_head? hhead)

/-- What is copied is a result or an executable. -/
theorem ResultTree.not_isWrapper (h : ResultTree source fs) (repositoryDir packageOutput : Path)
    (hfound : ∀ path, path ∈ found ↔ Collected source fs path) {file : Copy}
    (hfile : file ∈ artifactFiles repositoryDir packageOutput fs found) (mode : Nat) :
    ¬ IsWrapper (some (.file file.content mode)) := by
  obtain ⟨artifact, hartifact, hfile⟩ := List.mem_flatMap.mp hfile
  obtain ⟨path, hpath, hartifact⟩ := List.mem_filterMap.mp hartifact
  obtain ⟨hin, hkind, content, mode', hnode, _⟩ := (hfound path).mp hpath
  obtain ⟨kind, hkind⟩ := Option.isSome_iff_exists.mp hkind
  obtain ⟨x, bytes, order, m, hcanonical, rfl, hcontent, horiginal, helf⟩ :=
    h.written path kind content ⟨hin, hkind, mode', hnode⟩
  have hbinary := horiginal.readRegular_binary hcanonical kind
  rw [artifactOf, readRegular_file hnode] at hartifact
  obtain rfl := Option.some.inj hartifact
  apply not_isWrapper_of_head
  rcases List.mem_cons.mp hfile with rfl | hfile
  · exact Or.inr ⟨order, m, hcontent⟩
  · rw [hbinary, Option.map_some] at hfile
    obtain rfl := List.mem_singleton.mp hfile
    exact Or.inl helf

end Selection

/-- `collect_artifacts` selects exactly the useful results when and only when no result
file holds the empty map. -/
theorem collectsUseful_iff (source repositoryDir packageOutput : Path) (fs : FileSystem)
    (found : List Path) (htree : ResultTree source fs)
    (hfound : ∀ path, path ∈ found ↔ Collected source fs path) :
    CollectsUseful source repositoryDir packageOutput fs found ↔
      ∀ path kind content, ResultFile source fs path kind content →
        loadEdgesFromJSON (some content) .empty ≠ .ok .empty := by
  constructor
  · intro h path kind content hresult hload
    have hcopied := htree.copied repositoryDir packageOutput hfound hresult
    exact (h.selected path kind content .empty hresult hload).mp hcopied rfl
  · intro h
    refine ⟨?_, ?_, fun file hfile mode =>
      htree.not_isWrapper repositoryDir packageOutput hfound hfile mode⟩
    · intro path kind content m hresult hload
      refine iff_of_true (htree.copied repositoryDir packageOutput hfound hresult) ?_
      rintro rfl
      exact h path kind content hresult hload
    · rintro path kind content x bytes hresult _ hcanonical rfl horiginal
      exact htree.copied_binary repositoryDir packageOutput hfound hcanonical hresult horiginal

/-- A tree with one executable that is still wrapped, and its results. -/
def resultTree (calls : EdgeMap) : FileSystem := fun path =>
  if path = "/w/src/x.orig".toList then some (.file ['\x7f', 'E', 'L', 'F'] 0o755)
  else if path = "/w/src/x".toList then some (.file (shebang ++ '\n' :: (marker ++ ['\n'])) 0o755)
  else if path = "/w/src/x.orig_icall.json".toList then
    some (.file (edgesText .ascending calls) 0o644)
  else none

theorem resultTree_resultFile {calls : EdgeMap} {path : Path} {kind : Bool} {content : List Char}
    (h : ResultFile "/w/src".toList (resultTree calls) path kind content) :
    path = "/w/src/x.orig_icall.json".toList ∧ kind = true ∧
      content = edgesText .ascending calls := by
  obtain ⟨_, hkind, mode, hfile⟩ := h
  unfold resultTree at hfile
  split at hfile
  · rename_i hpath
    rw [hpath] at hkind
    exact absurd hkind (by cases kind <;> decide)
  · split at hfile
    · rename_i hpath
      rw [hpath] at hkind
      exact absurd hkind (by cases kind <;> decide)
    · split at hfile
      · rename_i hpath
        obtain ⟨rfl, _⟩ := Node.file.inj (Option.some.inj hfile)
        rw [hpath] at hkind
        refine ⟨hpath, ?_, rfl⟩
        cases kind with
        | true => rfl
        | false => exact absurd hkind (by decide)
      · cases hfile

theorem resultTree_written (calls : EdgeMap) :
    ResultTree "/w/src".toList (resultTree calls) where
  written := by
    intro path kind content hresult
    obtain ⟨rfl, rfl, rfl⟩ := resultTree_resultFile hresult
    refine ⟨"/w/src/x".toList, ['\x7f', 'E', 'L', 'F'], .ascending, calls, ?_, by decide, rfl, ?_,
      rfl⟩
    · unfold IsCanonical
      decide
    · exact .wrapped 0o755 rfl ⟨_, _, rfl, by decide, by decide⟩

theorem resultTree_found (calls : EdgeMap) (path : Path) :
    path ∈ ["/w/src/x.orig_icall.json".toList] ↔
      Collected "/w/src".toList (resultTree calls) path := by
  rw [List.mem_singleton]
  constructor
  · rintro rfl
    exact ⟨by decide, by decide, _, _, rfl, two_lt_length_edgesText _ _⟩
  · rintro ⟨hin, hkind, content, mode, hfile, _⟩
    obtain ⟨kind, hkind⟩ := Option.isSome_iff_exists.mp hkind
    exact (resultTree_resultFile ⟨hin, hkind, mode, hfile⟩).1

theorem collectsUseful_iff_sample :
    CollectsUseful "/w/src".toList "/w".toList "/o".toList
      (resultTree (EdgeMap.empty.insertEdge 0x1000 0x2000))
      ["/w/src/x.orig_icall.json".toList] := by
  apply (collectsUseful_iff _ _ _ _ _ (resultTree_written _) (resultTree_found _)).mpr
  intro path kind content hresult hload
  obtain ⟨_, _, rfl⟩ := resultTree_resultFile hresult
  rw [loadEdges_edgesText_empty] at hload
  exact absurd (congrArg EdgeMap.edges (Except.ok.inj hload)) (by decide)

/-- The empty map's `null` and its newline are five bytes, so it is copied. -/
theorem not_collectsUseful_empty :
    ResultTree "/w/src".toList (resultTree .empty) ∧
      ¬ CollectsUseful "/w/src".toList "/w".toList "/o".toList (resultTree .empty)
        ["/w/src/x.orig_icall.json".toList] := by
  refine ⟨resultTree_written .empty, ?_⟩
  intro h
  have hresult : ResultFile "/w/src".toList (resultTree .empty)
      "/w/src/x.orig_icall.json".toList true (edgesText .ascending .empty) :=
    ⟨by decide, by decide, _, rfl⟩
  have hcopied := (resultTree_written .empty).copied "/w".toList "/o".toList
    (resultTree_found .empty) hresult
  exact (h.selected _ _ _ .empty hresult (loadEdges_edgesText_empty _ _)).mp hcopied rfl

end Icflow.Collect
