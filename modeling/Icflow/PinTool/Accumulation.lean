import Icflow.PinTool.Recording

set_option autoImplicit false

/-!
# Accumulation over sequential runs

A run of the instrumented executable is a list of `RecordIndirectEdge` calls and
then `Fini`; the next run starts with fresh globals and the files the last one
left.  What the pair of result files is for is stated by `Holds`: each file is the
text of an edge map, or absent and the map empty.  One run takes the two maps to
their unions with what the run recorded (`holds_execute`), and so does a sequence of
runs (`holds_executeAll`), as long as each of them can read what the last one left:
`LoadEdgesFromJSON` passes over a file that it cannot open.
-/

namespace Icflow.PinTool

/-- One call of `RecordIndirectEdge`. -/
structure Event where
  ip : ADDRINT
  tgt : ADDRINT
  isCall : Bool
  deriving DecidableEq

/-- One run of the executable under the tool. -/
structure Run where
  textSectionBase : ADDRINT
  textSectionHigh : ADDRINT
  events : List Event
  jumpOrder : TargetOrder
  callOrder : TargetOrder
  access : Access

/-- The calls of `RecordIndirectEdge` in program order. -/
def recordAll (events : List Event) (tool : ToolState) : ToolState :=
  events.foldl (fun tool event => recordIndirectEdge event.ip event.tgt event.isCall tool) tool

/-- The globals of a run when its first transfer is recorded. -/
def Run.start (run : Run) (mainImageName : List Char) : ToolState :=
  { ToolState.initial with
    mainImageName := mainImageName
    textSectionBase := run.textSectionBase
    textSectionHigh := run.textSectionHigh }

/-- One run: record, then `Fini`. -/
def Run.execute (mainImageName : List Char) (run : Run) (files : Files) : Except LoadFault Files :=
  fini run.jumpOrder run.callOrder run.access (recordAll run.events (run.start mainImageName)) files

/-- Runs one after the other. -/
def executeAll (mainImageName : List Char) : List Run → Files → Except LoadFault Files
  | [], files => .ok files
  | run :: runs, files =>
      match run.execute mainImageName files with
      | .error fault => .error fault
      | .ok files' => executeAll mainImageName runs files'

/-! ## What a run observes -/

/-- The event is of this kind and has both ends in the run's `.text`. -/
def Run.Observes (run : Run) (kind : Bool) (edge : ADDRINT × ADDRINT) : Prop :=
  ∃ event ∈ run.events, event.isCall = kind ∧ (event.ip, event.tgt) = edge ∧
    InText run.textSectionBase run.textSectionHigh event.ip ∧
    InText run.textSectionBase run.textSectionHigh event.tgt

/-- A file that holds an edge map: written from it, or absent for the empty one. -/
def Holds (file : Option (List Char)) (m : EdgeMap) : Prop :=
  (file = none ∧ m = .empty) ∨ ∃ order : TargetOrder, file = some (edgesText order m)

theorem Holds.load {file : Option (List Char)} {m : EdgeMap} (h : Holds file m) :
    loadEdgesFromJSON file .empty = .ok m := by
  rcases h with ⟨rfl, rfl⟩ | ⟨order, rfl⟩
  · rfl
  · exact loadEdges_edgesText_empty order m

/-- Recording a list of calls adds the pairs in the range, kind by kind. -/
theorem mem_edgesOf_recordAll (events : List Event) (kind : Bool) (edge : ADDRINT × ADDRINT) :
    ∀ tool : ToolState,
      edge ∈ (recordAll events tool).edgesOf kind ↔
        edge ∈ tool.edgesOf kind ∨
          ∃ event ∈ events, event.isCall = kind ∧ (event.ip, event.tgt) = edge ∧
            InText tool.textSectionBase tool.textSectionHigh event.ip ∧
            InText tool.textSectionBase tool.textSectionHigh event.tgt := by
  induction events with
  | nil =>
      intro tool
      simp [recordAll]
  | cons event events ih =>
      intro tool
      obtain ⟨hbase, hhigh, _⟩ := recordIndirectEdge_globals event.ip event.tgt event.isCall tool
      have hstep := ih (recordIndirectEdge event.ip event.tgt event.isCall tool)
      rw [hbase, hhigh, mem_edgesOf_recordIndirectEdge, or_assoc] at hstep
      simp only [List.mem_cons, exists_eq_or_imp]
      exact hstep

theorem recordAll_mainImageName (events : List Event) :
    ∀ tool : ToolState, (recordAll events tool).mainImageName = tool.mainImageName := by
  induction events with
  | nil => exact fun _ => rfl
  | cons event events ih =>
      intro tool
      have hstep := ih (recordIndirectEdge event.ip event.tgt event.isCall tool)
      rw [(recordIndirectEdge_globals event.ip event.tgt event.isCall tool).2.2] at hstep
      exact hstep

theorem Run.mem_edgesOf (run : Run) (mainImageName : List Char) (kind : Bool)
    (edge : ADDRINT × ADDRINT) :
    edge ∈ (recordAll run.events (run.start mainImageName)).edgesOf kind ↔
      run.Observes kind edge := by
  rw [mem_edgesOf_recordAll]
  have hstart : edge ∉ (run.start mainImageName).edgesOf kind := by
    cases kind <;> simp [ToolState.edgesOf, Run.start, ToolState.initial]
  exact or_iff_right hstart

/-! ## Runs -/

/-- The result files of an executable hold these maps. -/
structure ResultFiles (mainImageName : List Char) (files : Files) (jumps calls : EdgeMap) :
    Prop where
  ijump : Holds (files (ijumpPath mainImageName)) jumps
  icall : Holds (files (icallPath mainImageName)) calls

/-- The run may write the result files of the executable, and read those that are there. -/
structure Run.Admitted (run : Run) (mainImageName : List Char) (files : Files) : Prop where
  readIjump : files (ijumpPath mainImageName) ≠ none →
    run.access.readable (ijumpPath mainImageName) = true
  readIcall : files (icallPath mainImageName) ≠ none →
    run.access.readable (icallPath mainImageName) = true
  writeIjump : run.access.writable (ijumpPath mainImageName) = true
  writeIcall : run.access.writable (icallPath mainImageName) = true

/-- Each run is admitted to the files that the runs before it leave. -/
def AllAdmitted (mainImageName : List Char) : List Run → Files → Prop
  | [], _ => True
  | run :: runs, files =>
      run.Admitted mainImageName files ∧
        ∀ files', run.execute mainImageName files = .ok files' →
          AllAdmitted mainImageName runs files'

/-- The run may read and write the result files of the executable. -/
structure Run.Permitted (run : Run) (mainImageName : List Char) : Prop where
  readIjump : run.access.readable (ijumpPath mainImageName) = true
  readIcall : run.access.readable (icallPath mainImageName) = true
  writeIjump : run.access.writable (ijumpPath mainImageName) = true
  writeIcall : run.access.writable (icallPath mainImageName) = true

theorem Run.Permitted.admitted {run : Run} {mainImageName : List Char}
    (h : run.Permitted mainImageName) (files : Files) : run.Admitted mainImageName files :=
  ⟨fun _ => h.readIjump, fun _ => h.readIcall, h.writeIjump, h.writeIcall⟩

theorem allAdmitted_of_permitted {mainImageName : List Char} (runs : List Run) :
    ∀ {files : Files}, (∀ run ∈ runs, run.Permitted mainImageName) →
      AllAdmitted mainImageName runs files := by
  induction runs with
  | nil => exact fun _ => trivial
  | cons run runs ih =>
      intro files hruns
      refine ⟨(hruns run List.mem_cons_self).admitted files, fun files' _ => ih ?_⟩
      exact fun other hother => hruns other (List.mem_cons_of_mem run hother)

/-- A file that is absent or can be opened is loaded. -/
theorem loadEdgesAt_of_readable {access : Access} {files : Files} {path : List Char}
    (hread : files path ≠ none → access.readable path = true) (edgeMap : EdgeMap) :
    loadEdgesAt access files path edgeMap = loadEdgesFromJSON (files path) edgeMap := by
  unfold loadEdgesAt
  split
  · rfl
  · rename_i hclosed
    have hnone : files path = none := by
      by_contra hsome
      exact hclosed (hread hsome)
    rw [hnone]
    rfl

/-- `Fini` of one process: the two files are rewritten with the union of what they
held and what the process recorded, and no other file changes. -/
theorem fini_merges (jumpOrder callOrder : TargetOrder) {access : Access} {tool : ToolState}
    {mainImageName : List Char} {files : Files} {jumps calls : EdgeMap}
    (hname : tool.mainImageName = mainImageName)
    (hfiles : ResultFiles mainImageName files jumps calls)
    (hread : (files (ijumpPath mainImageName) ≠ none →
        access.readable (ijumpPath mainImageName) = true) ∧
      (files (icallPath mainImageName) ≠ none →
        access.readable (icallPath mainImageName) = true))
    (hwrite : access.writable (ijumpPath mainImageName) = true ∧
      access.writable (icallPath mainImageName) = true) :
    ∃ (files' : Files) (jumps' calls' : EdgeMap),
      fini jumpOrder callOrder access tool files = .ok files' ∧
        ResultFiles mainImageName files' jumps' calls' ∧
        jumps'.edges = jumps.edges ∪ tool.indirectJumpEdges.edges ∧
        calls'.edges = calls.edges ∪ tool.indirectCallEdges.edges ∧
        ∀ path, path ≠ ijumpPath mainImageName → path ≠ icallPath mainImageName →
          files' path = files path := by
  subst hname
  obtain ⟨jumps', hjumps, hjumpEdges⟩ := loadEdges_merges hfiles.ijump.load tool.indirectJumpEdges
  obtain ⟨calls', hcalls, hcallEdges⟩ := loadEdges_merges hfiles.icall.load tool.indirectCallEdges
  refine ⟨saveEdgesAsJSON callOrder access (icallPath tool.mainImageName) calls'
    (saveEdgesAsJSON jumpOrder access (ijumpPath tool.mainImageName) jumps' files),
    jumps', calls', ?_, ⟨?_, ?_⟩, ?_, ?_, ?_⟩
  · simp only [fini, loadEdgesAt_of_readable hread.1, loadEdgesAt_of_readable hread.2, hjumps,
      hcalls]
  · right
    refine ⟨jumpOrder, ?_⟩
    simp only [saveEdgesAsJSON, hwrite.1, hwrite.2, if_true]
    rw [Function.update_of_ne (ijumpPath_ne_icallPath _), Function.update_self]
  · right
    exact ⟨callOrder, saveEdgesAsJSON_self hwrite.2 _ _⟩
  · rw [hjumpEdges, Finset.union_comm]
  · rw [hcallEdges, Finset.union_comm]
  · intro path hijump hicall
    simp only [saveEdgesAsJSON, hwrite.1, hwrite.2, if_true]
    rw [Function.update_of_ne hicall, Function.update_of_ne hijump]

/-- One run adds exactly what it observed to the two files. -/
theorem holds_execute {mainImageName : List Char} {run : Run} {files : Files}
    {jumps calls : EdgeMap} (hfiles : ResultFiles mainImageName files jumps calls)
    (hrun : run.Admitted mainImageName files) :
    ∃ (files' : Files) (jumps' calls' : EdgeMap),
      run.execute mainImageName files = .ok files' ∧
        ResultFiles mainImageName files' jumps' calls' ∧
        (∀ edge, edge ∈ jumps'.edges ↔ edge ∈ jumps.edges ∨ run.Observes false edge) ∧
        (∀ edge, edge ∈ calls'.edges ↔ edge ∈ calls.edges ∨ run.Observes true edge) ∧
        ∀ path, path ≠ ijumpPath mainImageName → path ≠ icallPath mainImageName →
          files' path = files path := by
  have hname : (recordAll run.events (run.start mainImageName)).mainImageName = mainImageName :=
    recordAll_mainImageName run.events (run.start mainImageName)
  obtain ⟨files', jumps', calls', hexec, hfiles', hjumps, hcalls, hframe⟩ :=
    fini_merges run.jumpOrder run.callOrder hname hfiles ⟨hrun.readIjump, hrun.readIcall⟩
      ⟨hrun.writeIjump, hrun.writeIcall⟩
  refine ⟨files', jumps', calls', hexec, hfiles', ?_, ?_, hframe⟩
  · intro edge
    rw [hjumps, Finset.mem_union, ← run.mem_edgesOf mainImageName false edge]
    rfl
  · intro edge
    rw [hcalls, Finset.mem_union, ← run.mem_edgesOf mainImageName true edge]
    rfl

/-- A sequence of runs adds exactly what its runs observed. -/
theorem holds_executeAll {mainImageName : List Char} (runs : List Run) :
    ∀ {files : Files} {jumps calls : EdgeMap}, ResultFiles mainImageName files jumps calls →
      AllAdmitted mainImageName runs files →
      ∃ (files' : Files) (jumps' calls' : EdgeMap),
        executeAll mainImageName runs files = .ok files' ∧
          ResultFiles mainImageName files' jumps' calls' ∧
          (∀ edge, edge ∈ jumps'.edges ↔
            edge ∈ jumps.edges ∨ ∃ run ∈ runs, run.Observes false edge) ∧
          (∀ edge, edge ∈ calls'.edges ↔
            edge ∈ calls.edges ∨ ∃ run ∈ runs, run.Observes true edge) ∧
          ∀ path, path ≠ ijumpPath mainImageName → path ≠ icallPath mainImageName →
            files' path = files path := by
  induction runs with
  | nil =>
      intro files jumps calls hfiles _
      exact ⟨files, jumps, calls, rfl, hfiles, by simp, by simp, fun _ _ _ => rfl⟩
  | cons run runs ih =>
      intro files jumps calls hfiles hruns
      obtain ⟨middle, jumps₁, calls₁, hexec, hmiddle, hjumps₁, hcalls₁, hframe₁⟩ :=
        holds_execute hfiles hruns.1
      obtain ⟨files', jumps', calls', hrest, hfiles', hjumps', hcalls', hframe'⟩ :=
        ih hmiddle (hruns.2 middle hexec)
      refine ⟨files', jumps', calls', ?_, hfiles', ?_, ?_, ?_⟩
      · simp only [executeAll, hexec]
        exact hrest
      · intro edge
        rw [hjumps', hjumps₁, or_assoc]
        simp only [List.mem_cons, exists_eq_or_imp]
      · intro edge
        rw [hcalls', hcalls₁, or_assoc]
        simp only [List.mem_cons, exists_eq_or_imp]
      · intro path hijump hicall
        rw [hframe' path hijump hicall, hframe₁ path hijump hicall]

/-- Sequential runs accumulate exactly: whatever the bounds, the events and the
iteration orders of the runs, when each can read the files the last one left, the final pair of files decodes to the initial edges
united with the in-range edges of every run, each kind in its own file; and loading
what was saved gives back the map. -/
theorem runs_accumulate {mainImageName : List Char} (runs : List Run) {files : Files}
    {jumps calls : EdgeMap} (hfiles : ResultFiles mainImageName files jumps calls)
    (hruns : AllAdmitted mainImageName runs files) :
    (∃ (files' : Files) (jumps' calls' : EdgeMap),
      executeAll mainImageName runs files = .ok files' ∧
        loadEdgesFromJSON (files' (ijumpPath mainImageName)) .empty = .ok jumps' ∧
        loadEdgesFromJSON (files' (icallPath mainImageName)) .empty = .ok calls' ∧
        (∀ edge, edge ∈ jumps'.edges ↔
          edge ∈ jumps.edges ∨ ∃ run ∈ runs, run.Observes false edge) ∧
        (∀ edge, edge ∈ calls'.edges ↔
          edge ∈ calls.edges ∨ ∃ run ∈ runs, run.Observes true edge)) ∧
      ∀ (order : TargetOrder) (m : EdgeMap),
        loadEdgesFromJSON (some (edgesText order m)) .empty = .ok m := by
  obtain ⟨files', jumps', calls', hexec, hfiles', hjumps, hcalls, _⟩ :=
    holds_executeAll runs hfiles hruns
  exact ⟨⟨files', jumps', calls', hexec, hfiles'.ijump.load, hfiles'.icall.load, hjumps, hcalls⟩,
    loadEdges_edgesText_empty⟩

/-- Two runs of `/t/p` with different bounds: the first records a call on its lower bound
and one with its target on the upper bound, the second a jump.  The first can read the
file of calls only. -/
def sampleRuns : List Run :=
  [{ textSectionBase := 0x1000, textSectionHigh := 0x2000,
     events := [⟨0x1000, 0x1fff, true⟩, ⟨0x1000, 0x2000, true⟩],
     jumpOrder := .ascending, callOrder := .ascending,
     access := ⟨fun path => path == icallPath "/t/p".toList, fun _ => true⟩ },
   { textSectionBase := 0x4000, textSectionHigh := 0x5000,
     events := [⟨0x4800, 0x4000, false⟩],
     jumpOrder := .ascending, callOrder := .ascending,
     access := ⟨fun _ => true, fun _ => true⟩ }]

/-- A call from an earlier run. -/
def earlierCalls : EdgeMap := EdgeMap.empty.insertEdge 0x1800 0x1900

/-- Its file, with no file of jumps beside it. -/
def earlierFiles : Files :=
  Function.update (fun _ => none) (icallPath "/t/p".toList)
    (some (edgesText .ascending earlierCalls))

theorem earlierFiles_ijump : earlierFiles (ijumpPath "/t/p".toList) = none :=
  Function.update_of_ne (ijumpPath_ne_icallPath _) _ _

theorem resultFiles_earlier : ResultFiles "/t/p".toList earlierFiles .empty earlierCalls where
  ijump := Or.inl ⟨earlierFiles_ijump, rfl⟩
  icall := Or.inr ⟨.ascending, Function.update_self _ _ _⟩

theorem runs_accumulate_sample :
    (∃ (files' : Files) (jumps' calls' : EdgeMap),
      executeAll "/t/p".toList sampleRuns earlierFiles = .ok files' ∧
        loadEdgesFromJSON (files' (ijumpPath "/t/p".toList)) .empty = .ok jumps' ∧
        loadEdgesFromJSON (files' (icallPath "/t/p".toList)) .empty = .ok calls' ∧
        (∀ edge, edge ∈ jumps'.edges ↔
          edge ∈ EdgeMap.empty.edges ∨ ∃ run ∈ sampleRuns, run.Observes false edge) ∧
        (∀ edge, edge ∈ calls'.edges ↔
          edge ∈ earlierCalls.edges ∨ ∃ run ∈ sampleRuns, run.Observes true edge)) ∧
      ∀ (order : TargetOrder) (m : EdgeMap),
        loadEdgesFromJSON (some (edgesText order m)) .empty = .ok m := by
  refine runs_accumulate sampleRuns resultFiles_earlier ⟨?_, fun files' _ => ⟨?_, fun _ _ => ?_⟩⟩
  · refine ⟨fun hsome => absurd earlierFiles_ijump hsome, fun _ => ?_, rfl, rfl⟩
    exact beq_self_eq_true _
  · exact ⟨fun _ => rfl, fun _ => rfl, rfl, rfl⟩
  · trivial

/-- A run that may write the result files but not read them. -/
def blindRun : Run where
  textSectionBase := 0x1000
  textSectionHigh := 0x2000
  events := []
  jumpOrder := .ascending
  callOrder := .ascending
  access := ⟨fun _ => false, fun _ => true⟩

/-- Write permission alone is not enough: a run that cannot open an earlier file for
reading loads nothing and writes its own edges over it. -/
theorem not_runs_accumulate_blind :
    ¬ ∀ (mainImageName : List Char) (runs : List Run) (files : Files) (jumps calls : EdgeMap),
        ResultFiles mainImageName files jumps calls →
        (∀ run ∈ runs, run.access.writable (ijumpPath mainImageName) = true ∧
          run.access.writable (icallPath mainImageName) = true) →
        ∃ (files' : Files) (jumps' calls' : EdgeMap),
          executeAll mainImageName runs files = .ok files' ∧
            loadEdgesFromJSON (files' (ijumpPath mainImageName)) .empty = .ok jumps' ∧
            loadEdgesFromJSON (files' (icallPath mainImageName)) .empty = .ok calls' ∧
            (∀ edge, edge ∈ jumps'.edges ↔
              edge ∈ jumps.edges ∨ ∃ run ∈ runs, run.Observes false edge) ∧
            (∀ edge, edge ∈ calls'.edges ↔
              edge ∈ calls.edges ∨ ∃ run ∈ runs, run.Observes true edge) := by
  intro h
  obtain ⟨files', _, calls', hexec, _, hload, _, hcalls⟩ :=
    h "/t/p".toList [blindRun] earlierFiles .empty earlierCalls resultFiles_earlier fun run hrun => by
      obtain rfl := List.mem_singleton.mp hrun
      exact ⟨rfl, rfl⟩
  obtain rfl := Except.ok.inj hexec
  have hfile : saveEdgesAsJSON .ascending blindRun.access (icallPath "/t/p".toList) .empty
      (saveEdgesAsJSON .ascending blindRun.access (ijumpPath "/t/p".toList) .empty earlierFiles)
      (icallPath "/t/p".toList) = some (edgesText .ascending .empty) :=
    saveEdgesAsJSON_self rfl _ _
  change loadEdgesFromJSON (saveEdgesAsJSON .ascending blindRun.access (icallPath "/t/p".toList)
    .empty (saveEdgesAsJSON .ascending blindRun.access (ijumpPath "/t/p".toList) .empty
      earlierFiles) (icallPath "/t/p".toList)) .empty = .ok calls' at hload
  rw [hfile, loadEdges_edgesText_empty] at hload
  obtain rfl := Except.ok.inj hload
  have hearlier : ((0x1800, 0x1900) : ADDRINT × ADDRINT) ∈ earlierCalls.edges := by decide
  have hempty := (hcalls (0x1800, 0x1900)).mpr (Or.inl hearlier)
  rw [EdgeMap.edges_empty] at hempty
  exact absurd hempty (Finset.notMem_empty _)

end Icflow.PinTool
