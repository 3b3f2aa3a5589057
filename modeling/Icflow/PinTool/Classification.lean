import Icflow.PinTool.Accumulation

set_option autoImplicit false

/-!
# Which transfers are recorded

The instrumentation callbacks `ImageLoad` and `Instruction` over a program whose
instructions are known by their kind, and the maps after any execution of it.

Pin runs `Instruction` when it translates an instruction.  Here the decision is taken
at the transfer itself; `instruction_eq` shows that it is the same at every moment
after the main executable was mapped, which Pin reports before its first instruction.
-/

namespace Icflow.PinTool

/-- The kinds of control transfer the Pin API distinguishes here. -/
inductive InstructionKind where
  | directJump
  | directCall
  | indirectJump
  | indirectCall
  | ret
  | other
  deriving DecidableEq, Repr

/-- `INS_IsIndirectControlFlow`: returns count as indirect control flow. -/
def InstructionKind.insIsIndirectControlFlow : InstructionKind → Bool
  | .indirectJump | .indirectCall | .ret => true
  | .directJump | .directCall | .other => false

/-- `INS_IsCall`. -/
def InstructionKind.insIsCall : InstructionKind → Bool
  | .directCall | .indirectCall => true
  | .directJump | .indirectJump | .ret | .other => false

/-- A section of an image. -/
structure Section where
  name : List Char
  address : ADDRINT
  size : BitVec 64

/-- A loaded image. -/
structure Image where
  isMainExecutable : Bool
  name : List Char
  lowAddress : ADDRINT
  highAddress : ADDRINT
  sections : List Section

/-- The first section named `.text`. -/
def Image.textSection (img : Image) : Option Section :=
  img.sections.find? fun sec => sec.name == ".text".toList

/-- `ImageLoad`. -/
def imageLoad (img : Image) (tool : ToolState) : ToolState :=
  if img.isMainExecutable then
    match img.textSection with
    | none => { tool with mainImageName := img.name }
    | some sec =>
        { tool with
          mainImageName := img.name
          textSectionBase := sec.address
          textSectionHigh := sec.address + sec.size }
  else tool

/-- The tool and what Pin knows of the address space. -/
structure Process where
  tool : ToolState
  images : List Image

/-- `IMG_FindByAddress`. -/
def imgFindByAddress (images : List Image) (address : ADDRINT) : Option Image :=
  images.find? fun img => decide (img.lowAddress ≤ address ∧ address ≤ img.highAddress)

/-- `Instruction`: the `isCall` argument of the inserted call of
`RecordIndirectEdge`, or nothing when no call is inserted. -/
def instruction (kind : InstructionKind) (address : ADDRINT) (process : Process) : Option Bool :=
  if kind.insIsIndirectControlFlow then
    match imgFindByAddress process.images address with
    | none => none
    | some img =>
        if img.isMainExecutable ∧ address ≥ process.tool.textSectionBase ∧
            address < process.tool.textSectionHigh then
          some kind.insIsCall
        else none
  else none

/-! ## Programs and executions -/

/-- A main executable and the kind of the instruction at each address. -/
structure Program where
  image : Image
  kindAt : ADDRINT → InstructionKind
  isMainExecutable : image.isMainExecutable = true
  /-- `.text` is mapped with the image and ends inside the address space. -/
  text_mapped : ∀ sec, image.textSection = some sec →
    sec.address.toNat + sec.size.toNat < 2 ^ 64 ∧
      ∀ address, InText sec.address (sec.address + sec.size) address →
        image.lowAddress ≤ address ∧ address ≤ image.highAddress

/-- The address is in the `.text` of the main executable. -/
def Program.InText (program : Program) (address : ADDRINT) : Prop :=
  ∃ sec, program.image.textSection = some sec ∧
    sec.address.toNat ≤ address.toNat ∧ address.toNat < sec.address.toNat + sec.size.toNat

/-- What Pin reports while the program runs. -/
inductive TraceEvent where
  /-- A shared library is mapped. -/
  | libraryLoad (img : Image) (notMain : img.isMainExecutable = false)
  /-- The instruction at `ip` transfers control to `tgt`. -/
  | takenBranch (ip tgt : ADDRINT)

/-- The process when the program's first instruction runs. -/
def Program.launch (program : Program) : Process where
  tool := imageLoad program.image .initial
  images := [program.image]

/-- One event: `IPOINT_TAKEN_BRANCH` runs the inserted call, if there is one. -/
def Program.step (program : Program) (process : Process) : TraceEvent → Process
  | .libraryLoad img _ =>
      { tool := imageLoad img process.tool, images := process.images ++ [img] }
  | .takenBranch ip tgt =>
      match instruction (program.kindAt ip) ip process with
      | none => process
      | some isCall => { process with tool := recordIndirectEdge ip tgt isCall process.tool }

/-- An execution of the program under the tool. -/
def Program.run (program : Program) (trace : List TraceEvent) : Process :=
  trace.foldl program.step program.launch

/-- A transfer of this kind was executed with both ends in `.text`. -/
def Program.Executed (program : Program) (kind : InstructionKind) (trace : List TraceEvent)
    (edge : ADDRINT × ADDRINT) : Prop :=
  .takenBranch edge.1 edge.2 ∈ trace ∧ program.kindAt edge.1 = kind ∧
    program.InText edge.1 ∧ program.InText edge.2

/-! ## The two filters compose -/

/-- What the callbacks rely on: the bounds are those of the main executable, which is
the first image Pin finds. -/
structure Program.Mapped (program : Program) (process : Process) : Prop where
  bounds : process.tool.textSectionBase = program.launch.tool.textSectionBase ∧
    process.tool.textSectionHigh = program.launch.tool.textSectionHigh
  main : ∃ libraries, process.images = program.image :: libraries

theorem Program.inText_iff (program : Program) (address : ADDRINT) :
    program.InText address ↔
      PinTool.InText program.launch.tool.textSectionBase program.launch.tool.textSectionHigh
        address := by
  unfold Program.InText PinTool.InText
  cases hsec : program.image.textSection with
  | none =>
      have hlaunch : program.launch.tool.textSectionHigh = 0 := by
        simp [Program.launch, imageLoad, program.isMainExecutable, hsec, ToolState.initial]
      rw [hlaunch]
      simp
  | some sec =>
      have hbase : program.launch.tool.textSectionBase = sec.address := by
        simp [Program.launch, imageLoad, program.isMainExecutable, hsec]
      have hhigh : program.launch.tool.textSectionHigh = sec.address + sec.size := by
        simp [Program.launch, imageLoad, program.isMainExecutable, hsec]
      have hnowrap := (program.text_mapped sec hsec).1
      rw [hbase, hhigh, BitVec.le_def, BitVec.lt_def, BitVec.toNat_add,
        Nat.mod_eq_of_lt hnowrap]
      simp

theorem Program.mapped_of_inText (program : Program) {address : ADDRINT}
    (h : program.InText address) :
    program.image.lowAddress ≤ address ∧ address ≤ program.image.highAddress := by
  obtain ⟨sec, hsec, hlow, hhigh⟩ := h
  obtain ⟨hnowrap, hmapped⟩ := program.text_mapped sec hsec
  refine hmapped address ⟨hlow, ?_⟩
  rw [BitVec.lt_def, BitVec.toNat_add, Nat.mod_eq_of_lt hnowrap]
  exact hhigh

/-- The decision of `Instruction` depends on the instruction and its address only. -/
theorem Program.instruction_eq (program : Program) {process : Process}
    (hmapped : program.Mapped process) (kind : InstructionKind) (address : ADDRINT) :
    instruction kind address process = some kind.insIsCall ∧
        kind.insIsIndirectControlFlow = true ∧ program.InText address ∨
      instruction kind address process = none ∧
        ¬ (kind.insIsIndirectControlFlow = true ∧ program.InText address) := by
  obtain ⟨libraries, himages⟩ := hmapped.main
  unfold instruction
  by_cases hkind : kind.insIsIndirectControlFlow = true
  · rw [if_pos hkind]
    by_cases htext : program.InText address
    · left
      have hfind : imgFindByAddress process.images address = some program.image := by
        rw [himages, imgFindByAddress, List.find?_cons_of_pos]
        exact decide_eq_true (program.mapped_of_inText htext)
      have hrange := (program.inText_iff address).mp htext
      rw [← hmapped.bounds.1, ← hmapped.bounds.2] at hrange
      simp only [hfind]
      rw [if_pos ⟨program.isMainExecutable, hrange.1, hrange.2⟩]
      exact ⟨rfl, hkind, htext⟩
    · right
      refine ⟨?_, fun h => htext h.2⟩
      have hrange : ¬ PinTool.InText process.tool.textSectionBase
          process.tool.textSectionHigh address := by
        rw [hmapped.bounds.1, hmapped.bounds.2, ← program.inText_iff]
        exact htext
      split
      · rfl
      · rw [if_neg fun h => hrange ⟨h.2.1, h.2.2⟩]
  · right
    rw [if_neg hkind]
    exact ⟨rfl, fun h => hkind h.1⟩

theorem Program.mapped_launch (program : Program) : program.Mapped program.launch where
  bounds := ⟨rfl, rfl⟩
  main := ⟨[], rfl⟩

/-- The event is a transfer along this edge that goes to the map selected by
`isCall`. -/
def Program.Records (program : Program) (isCall : Bool) (edge : ADDRINT × ADDRINT)
    (event : TraceEvent) : Prop :=
  event = .takenBranch edge.1 edge.2 ∧
    (program.kindAt edge.1).insIsIndirectControlFlow = true ∧
    (program.kindAt edge.1).insIsCall = isCall ∧
    program.InText edge.1 ∧ program.InText edge.2

/-- One event keeps the mapping and adds its edge, if it is one that is recorded. -/
theorem Program.step_spec (program : Program) {process : Process}
    (hmapped : program.Mapped process) (event : TraceEvent) :
    program.Mapped (program.step process event) ∧
      ∀ isCall edge, edge ∈ (program.step process event).tool.edgesOf isCall ↔
        edge ∈ process.tool.edgesOf isCall ∨ program.Records isCall edge event := by
  cases event with
  | libraryLoad img notMain =>
      have htool : imageLoad img process.tool = process.tool := by
        simp [imageLoad, notMain]
      obtain ⟨libraries, himages⟩ := hmapped.main
      refine ⟨⟨?_, ⟨libraries ++ [img], ?_⟩⟩, ?_⟩
      · simp only [Program.step, htool]
        exact hmapped.bounds
      · simp [Program.step, himages]
      · intro isCall edge
        simp [Program.step, htool, Program.Records]
  | takenBranch ip tgt =>
      rcases program.instruction_eq hmapped (program.kindAt ip) ip with
        ⟨hinserted, hkind, hip⟩ | ⟨hskipped, hnot⟩
      · have hstep : program.step process (.takenBranch ip tgt) =
            { process with tool :=
              recordIndirectEdge ip tgt (program.kindAt ip).insIsCall process.tool } := by
          simp only [Program.step, hinserted]
        obtain ⟨hbase, hhigh, _⟩ :=
          recordIndirectEdge_globals ip tgt (program.kindAt ip).insIsCall process.tool
        rw [hstep]
        refine ⟨⟨⟨hbase.trans hmapped.bounds.1, hhigh.trans hmapped.bounds.2⟩, hmapped.main⟩, ?_⟩
        intro isCall edge
        rw [mem_edgesOf_recordIndirectEdge, hmapped.bounds.1, hmapped.bounds.2,
          ← program.inText_iff, ← program.inText_iff]
        refine or_congr_right ⟨?_, ?_⟩
        · rintro ⟨hcall, rfl, hsrc, hdst⟩
          exact ⟨rfl, hkind, hcall, hsrc, hdst⟩
        · rintro ⟨hevent, _, hcall, hsrc, hdst⟩
          cases hevent
          exact ⟨hcall, rfl, hsrc, hdst⟩
      · have hstep : program.step process (.takenBranch ip tgt) = process := by
          simp only [Program.step, hskipped]
        rw [hstep]
        refine ⟨hmapped, ?_⟩
        intro isCall edge
        refine (or_iff_left ?_).symm
        rintro ⟨hevent, hkind, _, hin, _⟩
        cases hevent
        exact hnot ⟨hkind, hin⟩

theorem Program.mem_foldl_step (program : Program) (trace : List TraceEvent) :
    ∀ {process : Process}, program.Mapped process → ∀ isCall edge,
      edge ∈ (trace.foldl program.step process).tool.edgesOf isCall ↔
        edge ∈ process.tool.edgesOf isCall ∨
          ∃ event ∈ trace, program.Records isCall edge event := by
  induction trace with
  | nil =>
      intro process _ isCall edge
      simp
  | cons event trace ih =>
      intro process hmapped isCall edge
      obtain ⟨hmapped', hstep⟩ := program.step_spec hmapped event
      rw [List.foldl_cons, ih hmapped', hstep, or_assoc]
      simp only [List.mem_cons, exists_eq_or_imp]

theorem Program.mem_run (program : Program) (trace : List TraceEvent) (isCall : Bool)
    (edge : ADDRINT × ADDRINT) :
    edge ∈ (program.run trace).tool.edgesOf isCall ↔
      ∃ event ∈ trace, program.Records isCall edge event := by
  have hlaunch : edge ∉ program.launch.tool.edgesOf isCall := by
    have hempty : program.launch.tool.edgesOf isCall = ∅ := by
      unfold Program.launch imageLoad
      rw [if_pos program.isMainExecutable]
      split <;> cases isCall <;> rfl
    simp [hempty]
  rw [Program.run, program.mem_foldl_step trace program.mapped_launch]
  exact or_iff_right hlaunch

/-! ## The two maps after an execution -/

/-- The call map holds the executed indirect calls. -/
theorem Program.mem_indirectCallEdges (program : Program) (trace : List TraceEvent)
    (edge : ADDRINT × ADDRINT) :
    edge ∈ (program.run trace).tool.indirectCallEdges.edges ↔
      program.Executed .indirectCall trace edge := by
  refine (program.mem_run trace true edge).trans ⟨?_, ?_⟩
  · rintro ⟨event, hevent, rfl, hindirect, hcall, hsrc, hdst⟩
    refine ⟨hevent, ?_, hsrc, hdst⟩
    cases hkind : program.kindAt edge.1 <;> rw [hkind] at hindirect hcall <;> cases hindirect <;>
      first | rfl | cases hcall
  · rintro ⟨hevent, hkind, hsrc, hdst⟩
    exact ⟨_, hevent, rfl, by rw [hkind]; rfl, by rw [hkind]; rfl, hsrc, hdst⟩

/-- The jump map holds the executed indirect jumps and the executed returns: nothing
in `Instruction` or `RecordIndirectEdge` asks `INS_IsRet`. -/
theorem Program.mem_indirectJumpEdges (program : Program) (trace : List TraceEvent)
    (edge : ADDRINT × ADDRINT) :
    edge ∈ (program.run trace).tool.indirectJumpEdges.edges ↔
      program.Executed .indirectJump trace edge ∨ program.Executed .ret trace edge := by
  refine (program.mem_run trace false edge).trans ⟨?_, ?_⟩
  · rintro ⟨event, hevent, rfl, hindirect, hcall, hsrc, hdst⟩
    cases hkind : program.kindAt edge.1 <;> rw [hkind] at hindirect hcall <;> cases hindirect <;>
      first
      | exact Or.inl ⟨hevent, hkind, hsrc, hdst⟩
      | exact Or.inr ⟨hevent, hkind, hsrc, hdst⟩
      | cases hcall
  · rintro (⟨hevent, hkind, hsrc, hdst⟩ | ⟨hevent, hkind, hsrc, hdst⟩)
    · exact ⟨_, hevent, rfl, by rw [hkind]; rfl, by rw [hkind]; rfl, hsrc, hdst⟩
    · exact ⟨_, hevent, rfl, by rw [hkind]; rfl, by rw [hkind]; rfl, hsrc, hdst⟩

/-- Each map holds exactly the transfers of its kind, so that no return and no direct
transfer is in either. -/
structure Program.ClassifiesExactly (program : Program) (trace : List TraceEvent) : Prop where
  calls : ∀ edge, edge ∈ (program.run trace).tool.indirectCallEdges.edges ↔
    program.Executed .indirectCall trace edge
  jumps : ∀ edge, edge ∈ (program.run trace).tool.indirectJumpEdges.edges ↔
    program.Executed .indirectJump trace edge
  indirect : ∀ isCall edge, edge ∈ (program.run trace).tool.edgesOf isCall →
    program.kindAt edge.1 ≠ .ret ∧ program.kindAt edge.1 ≠ .directJump ∧
      program.kindAt edge.1 ≠ .directCall

/-- The maps are exact if and only if no return with both ends in `.text` was
executed. -/
theorem classifiesExactly_iff (program : Program) (trace : List TraceEvent) :
    program.ClassifiesExactly trace ↔ ∀ edge, ¬ program.Executed .ret trace edge := by
  constructor
  · intro h edge hret
    have hjump := (h.jumps edge).mp ((program.mem_indirectJumpEdges trace edge).mpr (Or.inr hret))
    have hkind := hret.2.1.symm.trans hjump.2.1
    cases hkind
  · intro hnoret
    have hjumps : ∀ edge, edge ∈ (program.run trace).tool.indirectJumpEdges.edges ↔
        program.Executed .indirectJump trace edge := by
      intro edge
      exact (program.mem_indirectJumpEdges trace edge).trans (or_iff_left (hnoret edge))
    refine ⟨program.mem_indirectCallEdges trace, hjumps, ?_⟩
    intro isCall edge hedge
    cases isCall with
    | true =>
        have hcall := (program.mem_indirectCallEdges trace edge).mp hedge
        rw [hcall.2.1]
        decide
    | false =>
        have hjump := (hjumps edge).mp hedge
        rw [hjump.2.1]
        decide

/-- A program whose only transfer is the return at `0x1010`. -/
def returningProgram : Program where
  image :=
    { isMainExecutable := true
      name := "/t/p".toList
      lowAddress := 0x1000
      highAddress := 0x1fff
      sections := [⟨".text".toList, 0x1000, 0x100⟩] }
  kindAt := fun address => if address = 0x1010 then .ret else .other
  isMainExecutable := rfl
  text_mapped := by
    intro sec hsec
    cases hsec
    refine ⟨by decide, ?_⟩
    rintro address ⟨hlow, hhigh⟩
    refine ⟨hlow, ?_⟩
    have hend : (0x1000 + 0x100 : ADDRINT) ≤ 0x1fff := by decide
    exact BitVec.le_trans (BitVec.le_of_lt hhigh) hend

/-- The return of `returningProgram` to `0x1005` ends up among the indirect jumps. -/
theorem not_classifiesExactly_return :
    ¬ ∀ (program : Program) (trace : List TraceEvent), program.ClassifiesExactly trace := by
  intro h
  have hexact := h returningProgram [.takenBranch 0x1010 0x1005]
  have hedge : ((0x1010, 0x1005) : ADDRINT × ADDRINT) ∈
      (returningProgram.run [.takenBranch 0x1010 0x1005]).tool.edgesOf false := by decide
  exact (hexact.indirect false _ hedge).1 rfl

end Icflow.PinTool
