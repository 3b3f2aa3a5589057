import Icflow.Compare.Verdict
import Icflow.PinTool.Pairs

set_option autoImplicit false

/-!
# `verify_llm_pipeline.sh`

The measuring steps of the script: the project's check under the native and under the
generated input, the result files put aside after each, and the comparison, which has to
find two new calls.  The script runs with errexit, so each step ends it when it fails.
The wrapped executable accumulates over the runs of one check; the result files are
removed before the second one.
-/

namespace Icflow.Compare

open Icflow.Foundation
open Icflow.Foundation.Json
open Icflow.PinTool

/-- `make check` with one file of test cases: the runs of the executable, and the status. -/
structure Check where
  runs : List Run
  status : Nat

/-- A run under the tool.  The tool is terminated before it writes when it cannot read what
a result file holds. -/
def leave (original : List Char) (files : Files) (run : Run) : Files :=
  match run.execute original files with
  | .ok files' => files'
  | .error _ => files

/-- What the script is given. -/
structure Pipeline (τ : Type) where
  /-- the executable behind the wrapper -/
  original : List Char
  native : Check
  generated : Check
  /-- `jq -e 'type == "object" and length > 0'` -/
  jq : List Char → Bool
  python : Interpreter
  baselineDir : List Char
  candidateDir : List Char
  /-- `"$OUTPUT_ROOT/comparison.json"` -/
  comparison : List (List Char)
  store : Store (List Char) τ

/-- The steps at which the script can end. -/
inductive Stage where
  | check
  | jq
  | copy
  | compare
  deriving DecidableEq

namespace Pipeline

variable {τ : Type} (pipeline : Pipeline τ)

/-- Check the project, and put its result files aside in an empty directory. -/
def measure (check : Check) (project : Files) : Except Stage (List (List Char × Tree) × Files) :=
  let project' := check.runs.foldl (leave pipeline.original) project
  if check.status = 0 then
    match project' (icallPath pipeline.original) with
    | none => .error .jq
    | some calls =>
        if pipeline.jq calls then
          match project' (ijumpPath pipeline.original) with
          | none => .error .copy
          | some jumps =>
              .ok ([(filename (icallPath pipeline.original), .file calls),
                (filename (ijumpPath pipeline.original), .file jumps)], project')
        else .error .jq
  else .error .check

/-- `rm -f -- "$ICALL_JSON" "$IJUMP_JSON"` -/
def removeResults (project : Files) : Files :=
  Function.update (Function.update project (icallPath pipeline.original) none)
    (ijumpPath pipeline.original) none

/-- The arguments of the comparison. -/
def arguments (baseline candidate : List (List Char × Tree)) : Arguments :=
  ⟨(pipeline.baselineDir, some (.directory baseline)),
    (pipeline.candidateDir, some (.directory candidate)), 2, some pipeline.comparison⟩

/-- The script from the first check on. -/
def verify (project : Files) : Except Stage Unit :=
  match pipeline.measure pipeline.native project with
  | .error stage => .error stage
  | .ok (baseline, project') =>
      match pipeline.measure pipeline.generated (pipeline.removeResults project') with
      | .error stage => .error stage
      | .ok (candidate, _) =>
          if (main pipeline.python (pipeline.arguments baseline candidate) pipeline.store).ending.status = 0
          then .ok ()
          else .error .compare

end Pipeline

/-! ## The runs of one check -/

section Runs

variable {original : List Char}

theorem foldl_leave_of_executeAll (runs : List Run) {files files' : Files}
    (h : executeAll original runs files = .ok files') :
    runs.foldl (leave original) files = files' := by
  induction runs generalizing files with
  | nil => exact Except.ok.inj h
  | cons run runs ih =>
      unfold executeAll at h
      cases hexec : run.execute original files with
      | error fault =>
          rw [hexec] at h
          cases h
      | ok middle =>
          rw [hexec] at h
          rw [List.foldl_cons, leave, hexec]
          exact ih h

/-- The last run leaves a file of each kind. -/
theorem exists_result_of_executeAll (kind : Bool) (runs : List Run) {files files' : Files}
    (hruns : runs ≠ []) (h : executeAll original runs files = .ok files')
    (hwritable : ∀ run ∈ runs, run.access.writable (resultPath kind original) = true) :
    ∃ bytes, files' (resultPath kind original) = some bytes := by
  induction runs generalizing files with
  | nil => exact absurd rfl hruns
  | cons run runs ih =>
      obtain ⟨hfirst, hrest⟩ := List.forall_mem_cons.mp hwritable
      unfold executeAll at h
      cases hexec : run.execute original files with
      | error fault =>
          rw [hexec] at h
          cases h
      | ok middle =>
          rw [hexec] at h
          cases runs with
          | nil =>
              obtain rfl := Except.ok.inj h
              obtain ⟨_, _, hfile, _⟩ := execute_saves hexec kind hfirst
              exact ⟨_, hfile⟩
          | cons next rest => exact ih (List.cons_ne_nil next rest) h hrest

end Runs

/-- The calls that the runs of a check observe. -/
def Check.observed (check : Check) : Set (ADDRINT × ADDRINT) := fun edge =>
  ∃ run ∈ check.runs, run.Observes true edge

/-- What `jq` documents for a JSON document, for the documents that the tool writes. -/
def TestsObjects (jq : List Char → Bool) : Prop :=
  ∀ (order : TargetOrder) (m : EdgeMap) (value : Json Nat),
    decodeJson (edgesText order m) = some value →
      (jq (edgesText order m) = true ↔ ∃ member members, value = .obj (member :: members))

theorem TestsObjects.edgesText_iff {jq : List Char → Bool} (hjq : TestsObjects jq)
    (order : TargetOrder) (m : EdgeMap) : jq (edgesText order m) = true ↔ m ≠ .empty := by
  rw [hjq order m _ (decodeJson_edgesText order m)]
  constructor
  · rintro ⟨member, members, hobject⟩ rfl
    cases hobject
  · intro hm
    have hempty : ¬ m.toMap.isEmpty = true := fun h => hm (EdgeMap.toMap_isEmpty_iff.mp h)
    have hjson : (edgesJson order m).map Char.toNat =
        .obj ((edgeMembers order m).toList.map decodedMember) := by
      rw [edgesJson, if_neg hempty, map, mapMembers_eq]
      rfl
    have hsome : (edgeMembers order m).toList ≠ [] := by
      intro hnil
      have hnone : m.toMap.toList = [] := by
        rw [List.eq_nil_iff_forall_not_mem]
        intro entry hentry
        have hmember : edgeMember order entry ∈ (edgeMembers order m).toList :=
          mem_edgeMembers.mpr ⟨entry, hentry, rfl⟩
        rw [hnil] at hmember
        cases hmember
      rw [← Std.ExtTreeMap.isEmpty_toList, hnone] at hempty
      exact hempty rfl
    obtain ⟨member, members, hcons⟩ := List.exists_cons_of_ne_nil hsome
    rw [hjson, hcons]
    exact ⟨_, _, rfl⟩

/-! ## One measurement -/

section Measure

variable {τ : Type} {pipeline : Pipeline τ}

/-- The calls and the jumps that are put aside. -/
def Pipeline.saved (pipeline : Pipeline τ) (calls jumps : List Char) : List (List Char × Tree) :=
  [(filename (icallPath pipeline.original), .file calls),
    (filename (ijumpPath pipeline.original), .file jumps)]

/-- A check that starts without result files either puts aside exactly the calls it
observed, and observed some, or ends the script. -/
theorem measure_cases (hjq : TestsObjects pipeline.jq) (check : Check)
    (hruns : ∀ run ∈ check.runs, run.Permitted pipeline.original) {project : Files}
    (hcalls : project (icallPath pipeline.original) = none)
    (hjumps : project (ijumpPath pipeline.original) = none) :
    (check.status = 0 ∧ ∃ order m jumps project', m ≠ EdgeMap.empty ∧ (m.edges : Set _) = check.observed ∧
        pipeline.measure check project =
          .ok (pipeline.saved (edgesText order m) jumps, project')) ∨
      ¬ (check.status = 0 ∧ check.observed.Nonempty) ∧
        ∃ stage, pipeline.measure check project = .error stage := by
  have hstart : ResultFiles pipeline.original project .empty .empty :=
    ⟨Or.inl ⟨hjumps, rfl⟩, Or.inl ⟨hcalls, rfl⟩⟩
  obtain ⟨files', jumps, calls, hexecute, hresults, _, hedges, _⟩ :=
    holds_executeAll check.runs hstart (allAdmitted_of_permitted check.runs hruns)
  have hobserved : (calls.edges : Set (ADDRINT × ADDRINT)) = check.observed := by
    ext edge
    rw [Finset.mem_coe, hedges, EdgeMap.edges_empty, or_iff_right (Finset.notMem_empty edge)]
    rfl
  have hempty : calls = .empty → ¬ check.observed.Nonempty := by
    rintro rfl
    rw [← hobserved, EdgeMap.edges_empty, Finset.coe_empty]
    exact Set.not_nonempty_empty
  unfold Pipeline.measure
  rw [foldl_leave_of_executeAll check.runs hexecute]
  dsimp only
  split
  · rename_i hstatus
    rcases hresults.icall with ⟨hnone, hnocalls⟩ | ⟨order, hfile⟩
    · rw [hnone]
      exact Or.inr ⟨fun h => hempty hnocalls h.2, .jq, rfl⟩
    · rw [hfile]
      dsimp only
      by_cases hsome : calls = .empty
      · rw [if_neg fun h => (hjq.edgesText_iff order calls).mp h hsome]
        exact Or.inr ⟨fun h => hempty hsome h.2, .jq, rfl⟩
      · rw [if_pos ((hjq.edgesText_iff order calls).mpr hsome)]
        have hran : check.runs ≠ [] := by
          intro hnil
          rw [hnil] at hexecute
          obtain rfl := Except.ok.inj hexecute
          rw [hcalls] at hfile
          cases hfile
        obtain ⟨bytes, hbytes⟩ := exists_result_of_executeAll false check.runs hran hexecute
          fun run hrun => (hruns run hrun).writeIjump
        have hpath : resultPath false pipeline.original = ijumpPath pipeline.original := rfl
        rw [hpath] at hbytes
        rw [hbytes]
        exact Or.inl ⟨hstatus, order, calls, bytes, files', hsome, hobserved, rfl⟩
  · rename_i hstatus
    exact Or.inr ⟨fun h => hstatus h.1, .check, rfl⟩

/-! ## The comparison of the two measurements -/

theorem matchesIcall_icallPath (original : List Char) :
    matchesIcall [filename (icallPath original)] = true := by
  have hname : [filename (icallPath original)].getLastD [] = filename original ++ icallSuffix :=
    filename_icallPath original
  rw [matchesIcall, hname, List.isSuffixOf_iff_suffix]
  exact List.suffix_append _ _

theorem matchesIcall_ijumpPath (original : List Char) :
    matchesIcall [filename (ijumpPath original)] = false := by
  have hslash : '/' ∉ "_ijump.json".toList := by decide
  have hname : filename (ijumpPath original) =
      filename (resultStem original) ++ "_ijump.json".toList := by
    rw [ijumpPath, filename_append_suffix _ hslash]
  have hlength : icallSuffix.length = "_ijump.json".toList.length := by decide
  have hdiffer : icallSuffix ≠ "_ijump.json".toList := by decide
  rw [matchesIcall, List.getLastD_cons, List.getLastD_nil, hname, ← Bool.not_eq_true,
    List.isSuffixOf_iff_suffix]
  rintro ⟨stem, hstem⟩
  exact hdiffer (List.append_inj_right' hstem hlength)

/-- The one result file of a directory that the script has filled. -/
theorem rootFiles_saved (pipeline : Pipeline τ) (directory calls jumps : List Char) :
    rootFiles directory (some (.directory (pipeline.saved calls jumps))) =
      [(filename (icallPath pipeline.original), .file calls)] := by
  have hbelow : entryDescendants (pipeline.saved calls jumps) =
      [([filename (icallPath pipeline.original)], .file calls),
        ([filename (ijumpPath pipeline.original)], .file jumps)] := rfl
  have hcalls := matchesIcall_icallPath pipeline.original
  have hjumps := matchesIcall_ijumpPath pipeline.original
  rw [rootFiles, hbelow]
  simp only [List.filter_cons, hcalls, hjumps, if_true, Bool.false_eq_true, if_false, List.filter_nil]
  rfl

/-- A directory that the script has filled, as results of the tool. -/
def savedResults (pipeline : Pipeline τ) (directory : List Char) (order : TargetOrder) (m : EdgeMap)
    (jumps : List Char) : ToolResults where
  resolved := directory
  root := some (.directory (pipeline.saved (edgesText order m) jumps))
  files := [⟨filename (icallPath pipeline.original), order, m⟩]
  written := rootFiles_saved pipeline directory (edgesText order m) jumps

theorem observed_savedResults {directory : List Char} {order : TargetOrder} {m : EdgeMap}
    {jumps : List Char} : (savedResults pipeline directory order m jumps).Observed ↔ m ≠ .empty := by
  simp [ToolResults.Observed, savedResults]

theorem recorded_savedResults (pipeline : Pipeline τ) (directory : List Char) (order : TargetOrder)
    (m : EdgeMap) (jumps : List Char) :
    (savedResults pipeline directory order m jumps).recorded =
      Prod.mk (filename (icallPath pipeline.original)) '' (m.edges : Set (ADDRINT × ADDRINT)) := by
  ext ⟨identity, edge⟩
  constructor
  · rintro ⟨file, hfile, hidentity, hedge⟩
    rw [List.mem_singleton.mp hfile] at hidentity hedge
    exact ⟨edge, hedge, Prod.ext hidentity rfl⟩
  · rintro ⟨other, hedge, heq⟩
    rw [Prod.mk.injEq] at heq
    obtain ⟨rfl, rfl⟩ := heq
    exact ⟨_, List.mem_singleton_self _, rfl, hedge⟩

/-- The comparison asks for two calls that the native input did not make. -/
theorem status_compare_eq_zero_iff (pipeline : Pipeline τ) (order order' : TargetOrder)
    (jumps jumps' : List Char) {m m' : EdgeMap} (hm : m ≠ .empty) (hm' : m' ≠ .empty) :
    (main pipeline.python (pipeline.arguments (pipeline.saved (edgesText order m) jumps)
        (pipeline.saved (edgesText order' m') jumps')) pipeline.store).ending.status = 0 ↔
      Store.Savable pipeline.store pipeline.comparison ∧
        2 ≤ ((m'.edges : Set (ADDRINT × ADDRINT)) \ m.edges).ncard := by
  have hstatus := status_toolArguments_eq_zero_iff pipeline.python
    (savedResults pipeline pipeline.baselineDir order m jumps)
    (savedResults pipeline pipeline.candidateDir order' m' jumps') 2 (some pipeline.comparison)
    pipeline.store
  have hinjective : Function.Injective fun edge : ADDRINT × ADDRINT =>
      (filename (icallPath pipeline.original), edge) :=
    Prod.mk_right_injective _
  rw [observed_savedResults, observed_savedResults, recorded_savedResults, recorded_savedResults,
    ← Set.image_sdiff hinjective, Set.ncard_image_of_injective _ hinjective,
    and_iff_right hm, and_iff_right hm'] at hstatus
  simp only [Option.some.injEq, forall_eq'] at hstatus
  exact hstatus

end Measure

/-! ## The script -/

/-- The script succeeds exactly when both checks pass, the native input makes an indirect
call, the comparison can be written, and the generated input makes two calls that the native
one does not make: what the second check leaves is its own. -/
theorem verify_ok_iff {τ : Type} (pipeline : Pipeline τ) (hjq : TestsObjects pipeline.jq)
    (hnative : ∀ run ∈ pipeline.native.runs, run.Permitted pipeline.original)
    (hgenerated : ∀ run ∈ pipeline.generated.runs, run.Permitted pipeline.original)
    {project : Files} (hcalls : project (icallPath pipeline.original) = none)
    (hjumps : project (ijumpPath pipeline.original) = none) :
    pipeline.verify project = .ok () ↔
      pipeline.native.status = 0 ∧ pipeline.generated.status = 0 ∧
        pipeline.native.observed.Nonempty ∧ Store.Savable pipeline.store pipeline.comparison ∧
          2 ≤ (pipeline.generated.observed \ pipeline.native.observed).ncard := by
  unfold Pipeline.verify
  rcases measure_cases hjq pipeline.native hnative hcalls hjumps with
    ⟨hstatus, order, m, jumps, middle, hm, hedges, hmeasure⟩ | ⟨hnot, stage, hmeasure⟩
  · rw [hmeasure]
    dsimp only
    have hnonempty : pipeline.native.observed.Nonempty := by
      rw [← hedges, Finset.coe_nonempty, Finset.nonempty_iff_ne_empty]
      exact fun h => hm (EdgeMap.eq_of_edges_eq h)
    have hnocalls : pipeline.removeResults middle (icallPath pipeline.original) = none := by
      rw [Pipeline.removeResults, Function.update_of_ne (ijumpPath_ne_icallPath _).symm,
        Function.update_self]
    have hnojumps : pipeline.removeResults middle (ijumpPath pipeline.original) = none :=
      Function.update_self _ _ _
    rcases measure_cases hjq pipeline.generated hgenerated hnocalls hnojumps with
      ⟨hstatus', order', m', jumps', last, hm', hedges', hmeasure'⟩ | ⟨hnot, stage, hmeasure'⟩
    · have hcompare := status_compare_eq_zero_iff pipeline order order' jumps jumps' hm hm'
      rw [hmeasure', ← hedges, ← hedges', and_iff_right hstatus, and_iff_right hstatus',
        and_iff_right (hedges ▸ hnonempty), ← hcompare]
      dsimp only
      split
      · rename_i hsuccess
        exact iff_of_true rfl hsuccess
      · rename_i hfailure
        exact iff_of_false nofun hfailure
    · rw [hmeasure']
      apply iff_of_false nofun
      rintro ⟨_, hstatus', _, _, htwo⟩
      refine hnot ⟨hstatus', ?_⟩
      have hdifference := Set.nonempty_of_ncard_ne_zero (Nat.ne_of_gt (Nat.lt_of_lt_of_le Nat.two_pos htwo))
      exact hdifference.mono Set.sdiff_subset
  · rw [hmeasure]
    apply iff_of_false nofun
    rintro ⟨hstatus, _, hnonempty, _⟩
    exact hnot ⟨hstatus, hnonempty⟩

/-- A run that makes these calls from one place. -/
def callsFrom (targets : List ADDRINT) : Run where
  textSectionBase := 0x1000
  textSectionHigh := 0x2000
  events := targets.map fun target => ⟨0x1000, target, true⟩
  jumpOrder := .ascending
  callOrder := .ascending
  access := ⟨fun _ => true, fun _ => true⟩

/-- `jq` on what Python reads as JSON. -/
def testsObject (bytes : List Char) : Bool :=
  match decodeJson bytes with
  | some (.obj (_ :: _)) => true
  | _ => false

theorem testsObjects_testsObject : TestsObjects testsObject := by
  intro order m value hvalue
  unfold testsObject
  rw [hvalue]
  cases value with
  | obj members => cases members <;> simp
  | null | bool _ | num _ | str _ | arr _ => simp

theorem permitted_callsFrom (targets : List ADDRINT) (original : List Char) :
    (callsFrom targets).Permitted original := by
  constructor <;> simp only [callsFrom]

theorem observes_callsFrom {targets : List ADDRINT} {edge : ADDRINT × ADDRINT} :
    (callsFrom targets).Observes true edge ↔
      ∃ target ∈ targets, (0x1000, target) = edge ∧ InText 0x1000 0x2000 target := by
  have hsource : InText 0x1000 0x2000 (0x1000 : ADDRINT) := by decide
  constructor
  · rintro ⟨event, hevent, _, hedge, _, htarget⟩
    obtain ⟨target, hmem, rfl⟩ := List.mem_map.mp hevent
    exact ⟨target, hmem, hedge, htarget⟩
  · rintro ⟨target, hmem, hedge, htarget⟩
    exact ⟨_, List.mem_map_of_mem hmem, rfl, hedge, hsource, htarget⟩

/-- A check observes finitely many calls. -/
theorem Check.finite_observed (check : Check) : check.observed.Finite := by
  have hevents : check.observed ⊆ {edge | edge ∈ check.runs.flatMap fun run =>
      run.events.map fun event => (event.ip, event.tgt)} := by
    rintro edge ⟨run, hrun, event, hevent, _, hedge, _⟩
    exact List.mem_flatMap.mpr ⟨run, hrun, hedge ▸ List.mem_map_of_mem hevent⟩
  exact (List.finite_toSet _).subset hevents

/-- A check whose runs make these calls. -/
def checkOf (runs : List (List ADDRINT)) : Check := ⟨runs.map callsFrom, 0⟩

theorem permitted_checkOf (runs : List (List ADDRINT)) (original : List Char) :
    ∀ run ∈ (checkOf runs).runs, run.Permitted original := by
  intro run hrun
  obtain ⟨targets, _, rfl⟩ := List.mem_map.mp hrun
  exact permitted_callsFrom targets original

theorem mem_observed_checkOf {runs : List (List ADDRINT)} {target : ADDRINT}
    (htarget : InText 0x1000 0x2000 target) :
    (0x1000, target) ∈ (checkOf runs).observed ↔ ∃ targets ∈ runs, target ∈ targets := by
  constructor
  · rintro ⟨run, hrun, hobserves⟩
    obtain ⟨targets, htargets, rfl⟩ := List.mem_map.mp hrun
    obtain ⟨made, hmade, heq, _⟩ := observes_callsFrom.mp hobserves
    rw [Prod.mk.injEq] at heq
    exact ⟨targets, htargets, heq.2 ▸ hmade⟩
  · rintro ⟨targets, htargets, hmem⟩
    exact ⟨_, List.mem_map_of_mem htargets, observes_callsFrom.mpr ⟨target, hmem, rfl, htarget⟩⟩

/-- The native input makes one call, the generated one makes it again, and two others in
two runs. -/
def demoPipeline : Pipeline Unit where
  original := ['/', 'd']
  native := checkOf [[0x1100]]
  generated := checkOf [[0x1100, 0x1200], [0x1300]]
  jq := testsObject
  python := asciiPython
  baselineDir := ['/', 'b']
  candidateDir := ['/', 'c']
  comparison := [['j']]
  store := fun path => if path = [] then some .directory else none

theorem verify_ok_iff_demoPipeline : demoPipeline.verify (fun _ => none) = .ok () := by
  have hfirst : (0x1000, 0x1100) ∈ (checkOf [[0x1100]]).observed :=
    (mem_observed_checkOf (by decide)).mpr (by decide)
  have hsecond : (0x1000, 0x1200) ∈ (checkOf [[0x1100, 0x1200], [0x1300]]).observed :=
    (mem_observed_checkOf (by decide)).mpr (by decide)
  have hthird : (0x1000, 0x1300) ∈ (checkOf [[0x1100, 0x1200], [0x1300]]).observed :=
    (mem_observed_checkOf (by decide)).mpr (by decide)
  have hsecond' : (0x1000, 0x1200) ∉ (checkOf [[0x1100]]).observed :=
    (not_congr (mem_observed_checkOf (by decide))).mpr (by decide)
  have hthird' : (0x1000, 0x1300) ∉ (checkOf [[0x1100]]).observed :=
    (not_congr (mem_observed_checkOf (by decide))).mpr (by decide)
  have hsavable : Store.Savable demoPipeline.store demoPipeline.comparison :=
    ⟨demoPipeline.store, rfl, Or.inr (Or.inr ⟨rfl, rfl⟩)⟩
  have hnew : 1 < ((checkOf [[0x1100, 0x1200], [0x1300]]).observed \
      (checkOf [[0x1100]]).observed).ncard := by
    rw [Set.one_lt_ncard (Check.finite_observed _).sdiff]
    exact ⟨_, ⟨hsecond, hsecond'⟩, _, ⟨hthird, hthird'⟩, by decide⟩
  exact (verify_ok_iff demoPipeline testsObjects_testsObject (permitted_checkOf _ _)
    (permitted_checkOf _ _) rfl rfl).mpr ⟨rfl, rfl, ⟨_, hfirst⟩, hsavable, hnew⟩

end Icflow.Compare
