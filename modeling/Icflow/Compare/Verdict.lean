import Icflow.Compare.Main
import Icflow.PinTool.Accumulation

set_option autoImplicit false

/-!
# The verdict on runs under the tool

From the transfers that instrumented programs make to the exit status of the comparison:
the result files at both roots are those the Pin tool has written, so the triples that
are counted are the calls that the runs observed.
-/

namespace Icflow.Compare

open Icflow.Foundation
open Icflow.PinTool

/-! ## Roots that the tool has written -/

/-- A result file: its identity, and the map it was written from. -/
structure ToolFile where
  identity : List Char
  order : TargetOrder
  edges : EdgeMap

/-- The file as `load_pairs` finds it. -/
def ToolFile.entry (file : ToolFile) : List Char × Tree :=
  (file.identity, .file (edgesText file.order file.edges))

/-- A root at which all result files were written by the tool. -/
structure ToolResults where
  resolved : List Char
  root : Option Tree
  files : List ToolFile
  written : rootFiles resolved root = files.map ToolFile.entry

namespace ToolResults

/-- The edges of the files, each with the identity of its file. -/
def recorded (results : ToolResults) : Set (List Char × ADDRINT × ADDRINT) := fun triple =>
  ∃ file ∈ results.files, file.identity = triple.1 ∧ triple.2 ∈ file.edges.edges

/-- There is a file, and every file has an edge. -/
def Observed (results : ToolResults) : Prop :=
  results.files ≠ [] ∧ ∀ file ∈ results.files, file.edges ≠ .empty

end ToolResults

section Files

variable {python : Interpreter} {order : TargetOrder} {m : EdgeMap}

theorem decodeJson_edgesText (order : TargetOrder) (m : EdgeMap) :
    decodeJson (edgesText order m) = some ((edgesJson order m).map Char.toNat) := by
  rw [decodeJson, utf8Decode_of_isAscii (isAscii_edgesText order m), Option.bind_some,
    parseStrict_edgesText]

/-- Every interpreter goes deep enough for the tool's files. -/
theorem not_tooDeep_edgesText : ¬ TooDeep python (edgesText order m) := by
  obtain ⟨hdepth, hnumbers⟩ := flat_edgesJson order m
  rw [tooDeep_iff_of_value python (decodeJson_edgesText order m)]
  · exact not_lt.mpr (hdepth.trans python.two_le_maxNesting)
  · rw [hnumbers]
    exact List.forall_mem_nil _

/-- The tool's file of a map is accepted unless the map is empty. -/
theorem accepted_edgesText_iff : Accepted python (.file (edgesText order m)) ↔ m ≠ .empty := by
  have hread : readBytes (.file (edgesText order m)) = some (edgesText order m) := rfl
  constructor
  · rintro ⟨bytes, hbytes, haccepted⟩ rfl
    cases hbytes
    rcases addFile_collects python [] [] hread haccepted.shallow ∅ with
      ⟨_, pairs, hrun, _⟩ | ⟨hrejected, _⟩
    · rw [addFile_edgesText_empty] at hrun
      cases hrun
    · exact hrejected haccepted.accepted
  · intro hm
    refine ⟨_, rfl, ?_⟩
    have hshallow : ¬ TooDeep python (edgesText order m) := not_tooDeep_edgesText
    rcases addFile_collects python [] [] hread hshallow ∅ with
      ⟨haccepted, _⟩ | ⟨_, fault, hrun, _⟩
    · exact ⟨haccepted, hshallow⟩
    · rw [addFile_edgesText python [] [] order hm] at hrun
      cases hrun

/-- The sites and targets that the tool's file of a map holds are the edges of the map. -/
theorem holdsPair_edgesText_iff {pair : Pair} :
    HoldsPair python (edgesText order m) pair.2.1 pair.2.2 ↔
      ∃ edge ∈ m.edges, pairOf pair.1 edge = pair := by
  have hread : readBytes (.file (edgesText order m)) = some (edgesText order m) := rfl
  by_cases hm : m = .empty
  · subst hm
    have hdocument : decodeJson (edgesText order .empty) = some .null :=
      decodeJson_edgesText order .empty
    apply iff_of_false
    · rintro ⟨members, name, elements, element, hobject, _⟩
      rw [hdocument] at hobject
      cases hobject
    · rintro ⟨edge, hedge, _⟩
      rw [EdgeMap.edges_empty] at hedge
      exact Finset.notMem_empty edge hedge
  · have hshallow : ¬ TooDeep python (edgesText order m) := not_tooDeep_edgesText
    rcases addFile_collects python pair.1 [] hread hshallow ∅ with
      ⟨_, pairs, hrun, hpairs⟩ | ⟨_, fault, hrun, _⟩
    · rw [addFile_edgesText python pair.1 [] order hm, Except.ok.injEq] at hrun
      have hmem := hpairs pair
      rw [← hrun, or_iff_right (Finset.notMem_empty pair), Finset.mem_image] at hmem
      rw [hmem]
      exact (and_iff_right rfl).symm
    · rw [addFile_edgesText python pair.1 [] order hm] at hrun
      cases hrun

end Files

/-! ## The comparison of two such roots -/

namespace ToolResults

variable (python : Interpreter) (results : ToolResults)

theorem rootLoads_iff : RootLoads python results.resolved results.root ↔ results.Observed := by
  unfold RootLoads Observed
  rw [results.written, List.forall_mem_map, ne_eq, List.map_eq_nil_iff]
  simp only [ToolFile.entry, accepted_edgesText_iff, ne_eq]

/-- The triple of a recorded edge. -/
def pairOfRecorded (triple : List Char × ADDRINT × ADDRINT) : Pair := pairOf triple.1 triple.2

theorem pairOfRecorded_injective : Function.Injective pairOfRecorded := by
  rintro ⟨identity, site, target⟩ ⟨identity', site', target'⟩ h
  simp only [pairOfRecorded, pairOf, Prod.mk.injEq, Nat.cast_inj, BitVec.toNat_inj] at h
  rw [h.1, h.2.1, h.2.2]

/-- The triples that are read are those of the recorded edges. -/
theorem rootPairs_eq :
    RootPairs python results.resolved results.root = pairOfRecorded '' results.recorded := by
  ext pair
  constructor
  · rintro ⟨entry, hentry, bytes, hread, hidentity, hholds⟩
    rw [results.written] at hentry
    obtain ⟨file, hfile, rfl⟩ := List.mem_map.mp hentry
    cases hread
    obtain ⟨edge, hedge, hpair⟩ := holdsPair_edgesText_iff.mp hholds
    exact ⟨(pair.1, edge), ⟨file, hfile, hidentity.symm, hedge⟩, hpair⟩
  · rintro ⟨⟨identity, edge⟩, ⟨file, hfile, hidentity, hedge⟩, rfl⟩
    refine ⟨file.entry, ?_, _, rfl, hidentity.symm, ?_⟩
    · rw [results.written]
      exact List.mem_map_of_mem hfile
    · exact holdsPair_edgesText_iff.mpr ⟨edge, hedge, rfl⟩

end ToolResults

/-- The arguments for two roots that the tool has written. -/
def toolArguments (baseline candidate : ToolResults) (requireNew : Nat)
    (jsonOutput : Option (List (List Char))) : Arguments :=
  ⟨(baseline.resolved, baseline.root), (candidate.resolved, candidate.root), requireNew, jsonOutput⟩

theorem ncard_newPairs (python : Interpreter) (baseline candidate : ToolResults) (requireNew : Nat)
    (jsonOutput : Option (List (List Char))) :
    (candidatePairs python (toolArguments baseline candidate requireNew jsonOutput) \
        baselinePairs python (toolArguments baseline candidate requireNew jsonOutput)).ncard =
      (candidate.recorded \ baseline.recorded).ncard := by
  have hbaseline : baselinePairs python (toolArguments baseline candidate requireNew jsonOutput) =
      ToolResults.pairOfRecorded '' baseline.recorded := baseline.rootPairs_eq python
  have hcandidate : candidatePairs python (toolArguments baseline candidate requireNew jsonOutput) =
      ToolResults.pairOfRecorded '' candidate.recorded := candidate.rootPairs_eq python
  rw [hbaseline, hcandidate, ← Set.image_sdiff ToolResults.pairOfRecorded_injective,
    Set.ncard_image_of_injective _ ToolResults.pairOfRecorded_injective]

/-- On results of the tool the comparison succeeds exactly when every program of both runs
made an indirect call, the report can be written, and the candidate run recorded as many
calls that the baseline run did not record as are required. -/
theorem status_toolArguments_eq_zero_iff {τ : Type} (python : Interpreter)
    (baseline candidate : ToolResults) (requireNew : Nat) (jsonOutput : Option (List (List Char)))
    (store : Store (List Char) τ) :
    (main python (toolArguments baseline candidate requireNew jsonOutput) store).ending.status = 0 ↔
      baseline.Observed ∧ candidate.Observed ∧
        (∀ path, jsonOutput = some path → Store.Savable store path) ∧
        requireNew ≤ (candidate.recorded \ baseline.recorded).ncard := by
  rw [status_main_eq_zero_iff, ncard_newPairs, ← baseline.rootLoads_iff python,
    ← candidate.rootLoads_iff python]
  exact and_assoc

end Icflow.Compare
