import Icflow.Foundation.Path
import Icflow.PinTool.ResultFile
import Mathlib.Logic.Function.Basic

set_option autoImplicit false

/-!
# The globals of the tool and `Fini`

`ToolState` is the global data of `MyPinTool.cpp`.  `recordIndirectEdge` runs under
the tool's mutex, so its calls are taken one after the other.

`fini` is the exit callback with no other process around: `PinTool.LostUpdate` and
`PinTool.LockProtocol` take the same steps apart.  A fault of
`LoadEdgesFromJSON` is not caught by the tool, so it ends `fini` before anything is
saved.
-/

namespace Icflow.PinTool

open Icflow.Foundation

/-- The global variables. -/
structure ToolState where
  textSectionBase : ADDRINT
  textSectionHigh : ADDRINT
  mainImageName : List Char
  indirectJumpEdges : EdgeMap
  indirectCallEdges : EdgeMap
  deriving DecidableEq

/-- The globals before the program starts. -/
def ToolState.initial : ToolState where
  textSectionBase := 0
  textSectionHigh := 0
  mainImageName := []
  indirectJumpEdges := .empty
  indirectCallEdges := .empty

/-- The edges of one kind: `isCall` selects the map. -/
def ToolState.edgesOf (tool : ToolState) (isCall : Bool) : Finset (ADDRINT × ADDRINT) :=
  if isCall then tool.indirectCallEdges.edges else tool.indirectJumpEdges.edges

/-- The half-open range that `RecordIndirectEdge` tests. -/
def InText (base high address : ADDRINT) : Prop := base ≤ address ∧ address < high

instance (base high address : ADDRINT) : Decidable (InText base high address) := by
  unfold InText
  infer_instance

/-- `RecordIndirectEdge`. -/
def recordIndirectEdge (ip tgt : ADDRINT) (isCall : Bool) (tool : ToolState) : ToolState :=
  if ip < tool.textSectionBase ∨ ip ≥ tool.textSectionHigh then tool
  else if tgt < tool.textSectionBase ∨ tgt ≥ tool.textSectionHigh then tool
  else if isCall then
    { tool with indirectCallEdges := tool.indirectCallEdges.insertEdge ip tgt }
  else
    { tool with indirectJumpEdges := tool.indirectJumpEdges.insertEdge ip tgt }

/-! ## Files -/

/-- The contents of the files by path. -/
abbrev Files := List Char → Option (List Char)

/-- What the operating system grants the process: whether `std::ifstream` opens the file
at a path, and whether the descriptor of `FileLock` and the output stream do. -/
structure Access where
  readable : List Char → Bool
  writable : List Char → Bool

/-- `dir + "/" + base`. -/
def resultStem (mainImageName : List Char) : List Char :=
  parentPath mainImageName ++ '/' :: filename mainImageName

/-- `dir + "/" + base + "_ijump.json"`. -/
def ijumpPath (mainImageName : List Char) : List Char :=
  resultStem mainImageName ++ "_ijump.json".toList

/-- `dir + "/" + base + "_icall.json"`. -/
def icallPath (mainImageName : List Char) : List Char :=
  resultStem mainImageName ++ "_icall.json".toList

theorem ijumpPath_ne_icallPath (mainImageName : List Char) :
    ijumpPath mainImageName ≠ icallPath mainImageName := by
  intro h
  exact absurd (List.append_cancel_left h) (by decide)

/-- `LoadEdgesFromJSON` on a path: a file that cannot be opened loads nothing. -/
def loadEdgesAt (access : Access) (files : Files) (path : List Char) (edgeMap : EdgeMap) :
    Except LoadFault EdgeMap :=
  if access.readable path then loadEdgesFromJSON (files path) edgeMap else .ok edgeMap

/-- `SaveEdgesAsJSON` on a path: without the lock it returns before writing. -/
def saveEdgesAsJSON (order : TargetOrder) (access : Access) (path : List Char)
    (edgeMap : EdgeMap) (files : Files) : Files :=
  if access.writable path then Function.update files path (some (edgesText order edgeMap))
  else files

/-- `Fini`, with the orders of the sets at its two saves. -/
def fini (jumpOrder callOrder : TargetOrder) (access : Access) (tool : ToolState) (files : Files) :
    Except LoadFault Files :=
  let ijump := ijumpPath tool.mainImageName
  let icall := icallPath tool.mainImageName
  match loadEdgesAt access files ijump tool.indirectJumpEdges with
  | .error fault => .error fault
  | .ok jumps =>
      match loadEdgesAt access files icall tool.indirectCallEdges with
      | .error fault => .error fault
      | .ok calls =>
          .ok (saveEdgesAsJSON callOrder access icall calls
            (saveEdgesAsJSON jumpOrder access ijump jumps files))

/-- A file that can be written holds the map after its save. -/
theorem saveEdgesAsJSON_self {order : TargetOrder} {access : Access} {path : List Char}
    (hwritable : access.writable path = true) (edgeMap : EdgeMap) (files : Files) :
    saveEdgesAsJSON order access path edgeMap files path = some (edgesText order edgeMap) := by
  rw [saveEdgesAsJSON, if_pos hwritable, Function.update_self]

/-! ## Recording -/

/-- A call of `RecordIndirectEdge` adds its pair to the map of its kind exactly when
both ends are in the range. -/
theorem mem_edgesOf_recordIndirectEdge (ip tgt : ADDRINT) (isCall kind : Bool)
    (tool : ToolState) (edge : ADDRINT × ADDRINT) :
    edge ∈ (recordIndirectEdge ip tgt isCall tool).edgesOf kind ↔
      edge ∈ tool.edgesOf kind ∨
        (isCall = kind ∧ (ip, tgt) = edge ∧
          InText tool.textSectionBase tool.textSectionHigh ip ∧
          InText tool.textSectionBase tool.textSectionHigh tgt) := by
  have hrange : ∀ address : ADDRINT,
      (address < tool.textSectionBase ∨ address ≥ tool.textSectionHigh) ↔
        ¬ InText tool.textSectionBase tool.textSectionHigh address := by
    intro address
    rw [InText, not_and_or, BitVec.not_le, BitVec.not_lt]
  unfold recordIndirectEdge
  split
  · rename_i hip
    exact (or_iff_left fun h => (hrange ip).mp hip h.2.2.1).symm
  · rename_i hip
    split
    · rename_i htgt
      exact (or_iff_left fun h => (hrange tgt).mp htgt h.2.2.2).symm
    · rename_i htgt
      rw [hrange, not_not] at hip htgt
      have hadd : ∀ edges : Finset (ADDRINT × ADDRINT),
          edge ∈ insert (ip, tgt) edges ↔ edge ∈ edges ∨ (ip, tgt) = edge := by
        intro edges
        rw [Finset.mem_insert, or_comm, eq_comm]
      cases isCall <;> cases kind <;> simp [ToolState.edgesOf, hip, htgt, hadd]

theorem recordIndirectEdge_globals (ip tgt : ADDRINT) (isCall : Bool) (tool : ToolState) :
    (recordIndirectEdge ip tgt isCall tool).textSectionBase = tool.textSectionBase ∧
      (recordIndirectEdge ip tgt isCall tool).textSectionHigh = tool.textSectionHigh ∧
        (recordIndirectEdge ip tgt isCall tool).mainImageName = tool.mainImageName := by
  unfold recordIndirectEdge
  split
  · exact ⟨rfl, rfl, rfl⟩
  · split
    · exact ⟨rfl, rfl, rfl⟩
    · split <;> exact ⟨rfl, rfl, rfl⟩

end Icflow.PinTool
