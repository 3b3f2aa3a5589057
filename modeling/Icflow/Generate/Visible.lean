import Icflow.Generate.Ranking
import Icflow.Generate.Sending

set_option autoImplicit false

/-!
# What a project shows

Two projects are alike when the walk yields the same paths and the same is read of them;
whatever else is in them, and wherever their directories list it, they are sent as the
same prompt.  The candidates need not come in the same order for this: the categories are
sorted by keys in which no two candidates agree.
-/

namespace Icflow.Generate

open Icflow.Foundation

/-- The walk yields a file at this path, of which this is read. -/
def Visible (lower : Name → Name) (project : Project) (output : Option Path) (maxFileBytes : Nat)
    (parts : Path) (read : Option (List Char × Nat)) : Prop :=
  ∃ dirs name node, parts = dirs ++ [name] ∧
    Walk.Yields ⟨lower, project.root, output⟩ [] project.tree dirs name node ∧
      readTextFile maxFileBytes node = read

/-- Two projects at one place that show the same files. -/
structure Alike (lower : Name → Name) (output : Option Path) (maxFileBytes : Nat)
    (project project' : Project) : Prop where
  root : project.root = project'.root
  visible : ∀ parts read, Visible lower project output maxFileBytes parts read ↔
    Visible lower project' output maxFileBytes parts read

/-! ## The order of the candidates -/

section Order

variable {lower : Name → Name} {candidates candidates' : List Candidate}

/-- A category is sorted in one way only. -/
theorem bucket_eq_of_perm (hperm : candidates.Perm candidates')
    (hnodup : (candidates.map fun candidate => asPosix candidate.parts).Nodup) (category : Category) :
    bucket lower candidates category = bucket lower candidates' category := by
  have hbuckets : (bucket lower candidates category).Perm (bucket lower candidates' category) :=
    (List.mergeSort_perm _ _).trans ((hperm.filter _).trans (List.mergeSort_perm _ _).symm)
  refine hbuckets.eq_of_pairwise ?_ (pairwise_bucket category) (pairwise_bucket category)
  intro a b ha hb hab hba
  have hmem : ∀ candidate ∈ bucket lower candidates category, candidate ∈ candidates := by
    intro candidate hcandidate
    exact (List.mem_filter.mp ((List.mergeSort_perm _ _).mem_iff.mp hcandidate)).1
  have hpath : asPosix a.parts = asPosix b.parts := by
    rcases hab with hlt | ⟨heq, hle⟩
    · rcases hba with hlt' | ⟨heq', _⟩
      · omega
      · omega
    · rcases hba with hlt' | ⟨_, hle'⟩
      · omega
      · exact le_antisymm hle hle'
  exact List.inj_on_of_nodup_map hnodup (hmem a ha) (hmem b (hbuckets.mem_iff.mpr hb)) hpath

/-- The ranking does not depend on the order of the candidates. -/
theorem ranked_eq_of_perm (hperm : candidates.Perm candidates')
    (hnodup : (candidates.map fun candidate => asPosix candidate.parts).Nodup) :
    ranked lower candidates = ranked lower candidates' := by
  have hbuckets : bucket lower candidates = bucket lower candidates' :=
    funext (bucket_eq_of_perm hperm hnodup)
  rw [ranked, ranked, hbuckets]

end Order

/-! ## The contents of the candidates -/

section Contents

variable {lower : Name → Name} {f : Candidate → Candidate} (hparts : ∀ candidate, (f candidate).parts = candidate.parts)
include hparts

theorem bucket_map (candidates : List Candidate) (category : Category) :
    bucket lower (candidates.map f) category = (bucket lower candidates category).map f := by
  have hfilter : (candidates.map f).filter (fun candidate =>
        candidateCategory lower candidate.parts == category) =
      (candidates.filter fun candidate =>
        candidateCategory lower candidate.parts == category).map f := by
    rw [List.filter_map]
    congr 1
    refine List.filter_congr fun candidate _ => ?_
    rw [Function.comp_apply, hparts]
  rw [bucket, bucket, hfilter]
  refine (List.map_mergeSort fun a _ b _ => ?_).symm
  rw [ranksBefore, ranksBefore, hparts, hparts]

/-- Candidates are ranked by their paths. -/
theorem ranked_map (candidates : List Candidate) :
    ranked lower (candidates.map f) = (ranked lower candidates).map f := by
  rw [ranked, ranked, map_roundRobin, List.map_map]
  congr 1
  exact List.map_congr_left fun category _ => bucket_map hparts candidates category

/-- A candidate is selected for what is read of it. -/
theorem selectLoop_map {limits : Limits}
    (hread : ∀ candidate, readTextFile limits.maxFileBytes (f candidate).node =
      readTextFile limits.maxFileBytes candidate.node) (candidates : List Candidate)
    (selected usedChars : Nat) :
    selectLoop lower limits selected usedChars (candidates.map f) =
      selectLoop lower limits selected usedChars candidates := by
  induction candidates generalizing selected usedChars with
  | nil => rfl
  | cons candidate rest ih =>
      rw [List.map_cons, selectLoop, selectLoop, hread, hparts]
      cases readTextFile limits.maxFileBytes candidate.node with
      | none => simp only [ih]
      | some result =>
          obtain ⟨content, count⟩ := result
          simp only [ih]

end Contents

/-! ## Alike projects -/

section Alike

variable {lower : Name → Name} {output : Option Path} {project project' : Project}

open Classical in
/-- One node for all nodes of which the same is read. -/
noncomputable def standIn (maxFileBytes : Nat) (read : Option (List Char × Nat)) : Tree :=
  if h : ∃ node, readTextFile maxFileBytes node = read then h.choose else .special

theorem readTextFile_standIn (maxFileBytes : Nat) (node : Tree) :
    readTextFile maxFileBytes (standIn maxFileBytes (readTextFile maxFileBytes node)) =
      readTextFile maxFileBytes node := by
  have h : ∃ other, readTextFile maxFileBytes other = readTextFile maxFileBytes node := ⟨node, rfl⟩
  rw [standIn, dif_pos h]
  exact h.choose_spec

/-- The candidate with the stand-in of its node. -/
noncomputable def standInFor (maxFileBytes : Nat) (candidate : Candidate) : Candidate :=
  ⟨candidate.parts, standIn maxFileBytes (readTextFile maxFileBytes candidate.node)⟩

/-- The candidates are what the project shows. -/
theorem visible_iff {maxFileBytes : Nat} {parts : Path} {read : Option (List Char × Nat)} :
    Visible lower project output maxFileBytes parts read ↔
      ∃ candidate ∈ iterCandidatePaths lower project output, candidate.parts = parts ∧
        readTextFile maxFileBytes candidate.node = read := by
  constructor
  · rintro ⟨dirs, name, node, rfl, hyields, hread⟩
    exact ⟨⟨dirs ++ [name], node⟩,
      (Walk.mem_candidates project.tree_wellFormed).mpr ⟨dirs, name, rfl, hyields⟩, rfl, hread⟩
  · rintro ⟨candidate, hcandidate, rfl, hread⟩
    obtain ⟨dirs, name, hparts, hyields⟩ :=
      (Walk.mem_candidates project.tree_wellFormed).mp hcandidate
    exact ⟨dirs, name, candidate.node, hparts, hyields, hread⟩

theorem mem_map_standInFor {maxFileBytes : Nat} {candidate : Candidate} :
    candidate ∈ (iterCandidatePaths lower project output).map (standInFor maxFileBytes) ↔
      ∃ read, Visible lower project output maxFileBytes candidate.parts read ∧
        candidate.node = standIn maxFileBytes read := by
  rw [List.mem_map]
  constructor
  · rintro ⟨found, hfound, rfl⟩
    exact ⟨_, visible_iff.mpr ⟨found, hfound, rfl, rfl⟩, rfl⟩
  · rintro ⟨read, hvisible, hnode⟩
    obtain ⟨found, hfound, hparts, rfl⟩ := visible_iff.mp hvisible
    refine ⟨found, hfound, ?_⟩
    rw [standInFor, hparts, ← hnode]

/-- What is selected of a project is selected of what it shows. -/
theorem selectProjectFiles_of_alike {limits : Limits}
    (h : Alike lower output limits.maxFileBytes project project') :
    selectProjectFiles lower project output limits =
      selectProjectFiles lower project' output limits := by
  have hparts : ∀ candidate, (standInFor limits.maxFileBytes candidate).parts = candidate.parts :=
    fun _ => rfl
  have hread : ∀ candidate,
      readTextFile limits.maxFileBytes (standInFor limits.maxFileBytes candidate).node =
        readTextFile limits.maxFileBytes candidate.node :=
    fun candidate => readTextFile_standIn _ candidate.node
  have hpaths (project : Project) :
      (((iterCandidatePaths lower project output).map (standInFor limits.maxFileBytes)).map
        fun candidate => asPosix candidate.parts).Nodup := by
    rw [List.map_map]
    exact nodup_candidate_paths
  have hperm : ((iterCandidatePaths lower project output).map (standInFor limits.maxFileBytes)).Perm
      ((iterCandidatePaths lower project' output).map (standInFor limits.maxFileBytes)) := by
    refine (List.perm_ext_iff_of_nodup (hpaths project).of_map (hpaths project').of_map).mpr ?_
    intro candidate
    simp only [mem_map_standInFor, h.visible]
  rw [selectProjectFiles, selectProjectFiles, ← selectLoop_map hparts hread,
    ← selectLoop_map hparts hread (ranked lower (iterCandidatePaths lower project' output)),
    ← ranked_map hparts, ← ranked_map hparts, ranked_eq_of_perm hperm (hpaths project)]

end Alike

/-! ## Alike runs -/

section Runs

variable {python : Python} {machine machine' : Machine} {options : Options}

/-- Two machines for these options: the projects are alike, and nothing else that is read
before the mode, nor the key and the outcomes of requests, is different. -/
structure AlikeFor (python : Python) (options : Options) (machine machine' : Machine) : Prop where
  projects : ∃ project project', machine.project = some project ∧ machine'.project = some project' ∧
    ∀ output, resolvedOutput machine options = .ok output →
      Alike python.lower output options.limits.maxFileBytes project project'
  output : resolvedOutput machine options = resolvedOutput machine' options
  coverage : readCoverage machine options = readCoverage machine' options
  apiKey : machine.apiKey = machine'.apiKey
  outcomes : machine.outcomes = machine'.outcomes

theorem AlikeFor.symm (h : AlikeFor python options machine machine') :
    AlikeFor python options machine' machine := by
  obtain ⟨project, project', hproject, hproject', halike⟩ := h.projects
  refine ⟨⟨project', project, hproject', hproject, ?_⟩, h.output.symm, h.coverage.symm,
    h.apiKey.symm, h.outcomes.symm⟩
  intro output houtput
  obtain ⟨hroot, hvisible⟩ := halike output (h.output.trans houtput)
  exact ⟨hroot.symm, fun parts read => (hvisible parts read).symm⟩

/-- A draft is made of what the project shows. -/
theorem prepare_of_alike (h : AlikeFor python options machine machine') {draft : Draft}
    (hprepare : prepare python machine options = .ok draft) :
    prepare python machine' options = .ok draft := by
  obtain ⟨project, project', hproject, hproject', halike⟩ := h.projects
  obtain ⟨found, output, selected, coverage, hfound, hrequired, houtput, hseparate, hselected, hne,
    hcoverage, rfl⟩ := (prepare_eq_ok_iff _ _ _).mp hprepare
  rw [hproject, Option.some.injEq] at hfound
  subst hfound
  have hprojects := halike output houtput
  rw [h.output] at houtput
  rw [h.coverage] at hcoverage
  rw [hprojects.root] at hseparate
  refine (prepare_eq_ok_iff _ _ _).mpr ⟨project', output, selected, coverage, hproject', hrequired,
    houtput, hseparate, ?_, hne, hcoverage, ?_⟩
  · rw [← selectProjectFiles_of_alike hprojects]
    exact hselected
  · rw [manifest, manifest, hprojects.root]

/-- The requests of one run are sent by the other. -/
theorem requests_of_alike (h : AlikeFor python options machine machine')
    (hsent : (main python machine options).requests ≠ []) :
    (main python machine' options).requests = (main python machine options).requests := by
  obtain ⟨hmode, hkey, draft, hprepare, hrequests⟩ :=
    exists_apiCall_of_requests python machine options hsent
  have hsame : environmentKey machine = environmentKey machine' := by
    rw [environmentKey, environmentKey, h.apiKey]
  rw [hrequests, requests_main_of_draft python machine' options (prepare_of_alike h hprepare) hmode
    (hsame ▸ hkey)]
  unfold apiCall callArguments
  rw [hsame, h.outcomes]

/-- Whatever two projects have that is not shown, the same is sent for them, and the same is
printed by a dry run. -/
theorem main_of_alike (h : AlikeFor python options machine machine') :
    (main python machine options).requests = (main python machine' options).requests ∧
      (options.mode = .dryRun none → (main python machine options).result = .ok () →
        (main python machine' options).result = .ok () ∧
          (main python machine' options).printed = (main python machine options).printed) := by
  constructor
  · by_cases hsent : (main python machine options).requests = []
    · by_contra hne
      rw [hsent] at hne
      have hback := requests_of_alike h.symm fun hnone => hne hnone.symm
      exact hne (hsent.symm.trans hback)
    · exact (requests_of_alike h hsent).symm
  · intro hmode hok
    unfold main at hok ⊢
    cases hprepare : prepare python machine options with
    | error failure =>
        rw [hprepare] at hok
        cases hok
    | ok draft =>
        rw [prepare_of_alike h hprepare, hmode]
        exact ⟨rfl, rfl⟩

end Runs

/-! ## The project with the script, and one with more in it -/

/-- The project with the script, a file named after a secret and a repository. -/
def fullerProject : Project where
  root := [text "project"]
  entries :=
    [(text ".env", .file ['k'] true), (text "secrets", secretsDirectory),
      (text ".git", .directory [(text "config.c", .file ['u'] true)])]
  wellFormed := by
    refine ⟨⟨?_, ?_, ?_, ?_⟩, ?_, trivial, ⟨?_, ?_, ?_, ?_⟩, ?_, ⟨⟨?_, ?_, ?_, ?_⟩, ?_, trivial, trivial⟩,
      ⟨?_, ?_, ?_, ?_⟩, ?_, ⟨⟨?_, ?_, ?_, ?_⟩, ?_, trivial, trivial⟩, trivial⟩ <;> decide

theorem iterCandidatePaths_fullerProject :
    iterCandidatePaths asciiLower fullerProject (some generatedDirectory) =
      [⟨deployParts, deployScript⟩] := by
  have henv : secretWalk.keepsFile (text ".env") (.file ['k'] true) = false := by decide
  have hgit : secretWalk.keepsDirectory [] (text ".git")
      (.directory [(text "config.c", .file ['u'] true)]) = false := by decide
  have hkept : secretWalk.keepsDirectory [] (text "secrets") secretsDirectory = true := by decide
  have hfile : secretWalk.keepsFile (text "deploy.sh") deployScript = true := by decide
  have hleaf (bytes : List Char) : (Tree.file bytes true).isDir = false := rfl
  have hdirectory (entries : List (Name × Tree)) : (Tree.directory entries).isDir = true := rfl
  have hscript : deployScript.isDir = false := rfl
  have hsecrets : secretsDirectory.isDir = true := rfl
  have hbelow : secretWalk.candidates [text "secrets"] secretsDirectory =
      [⟨deployParts, deployScript⟩] := by
    simp [secretsDirectory, Walk.candidates, Walk.subdirectories, Walk.fileCandidates,
      sortedByName, hfile, hscript, deployParts]
  change secretWalk.candidates [] (.directory fullerProject.entries) = _
  simp [fullerProject, Walk.candidates, Walk.subdirectories, Walk.fileCandidates, sortedByName,
    hleaf, hdirectory, hsecrets, henv, hgit, hkept, hbelow]

theorem exists_prepare_secretProject : ∃ draft,
    prepare asciiPython (machineWith secretProject) { callingOptions with mode := .dryRun none } =
      .ok draft := by
  have hselected : selectProjectFiles asciiPython.lower secretProject (some generatedDirectory)
      callingOptions.limits = [selectedFile asciiLower deployParts ['x'] 1] :=
    selectProjectFiles_secretProject
  have hseparate : some generatedDirectory ≠ some secretProject.root := by decide
  refine ⟨_, (prepare_eq_ok_iff _ _ _).mpr ⟨secretProject, some generatedDirectory, _, _, rfl, ?_,
    rfl, hseparate, hselected, List.cons_ne_nil _ _, rfl, rfl⟩⟩
  exact fun hmode => absurd hmode (by decide)

theorem alikeFor_fullerProject (mode : Mode) :
    AlikeFor asciiPython { callingOptions with mode := mode } (machineWith secretProject)
      (machineWith fullerProject) := by
  have houtput : resolvedOutput (machineWith secretProject) { callingOptions with mode := mode } =
      .ok (some generatedDirectory) := rfl
  refine ⟨⟨secretProject, fullerProject, rfl, rfl, ?_⟩, rfl, rfl, rfl, rfl⟩
  intro output hresolved
  rw [houtput, Except.ok.injEq] at hresolved
  subst hresolved
  refine ⟨rfl, fun parts read => ?_⟩
  rw [visible_iff, visible_iff]
  have hsame : iterCandidatePaths asciiPython.lower secretProject (some generatedDirectory) =
      iterCandidatePaths asciiPython.lower fullerProject (some generatedDirectory) :=
    iterCandidatePaths_secretProject.trans iterCandidatePaths_fullerProject.symm
  rw [hsame]

/-- A run of the API for each of the two projects, and a dry run, which succeeds. -/
theorem main_of_alike_fullerProject :
    (main asciiPython (machineWith secretProject) { callingOptions with mode := .api }).requests =
        (main asciiPython (machineWith fullerProject) { callingOptions with mode := .api }).requests ∧
      (main asciiPython (machineWith fullerProject)
          { callingOptions with mode := .dryRun none }).result = .ok () ∧
        (main asciiPython (machineWith fullerProject)
            { callingOptions with mode := .dryRun none }).printed =
          (main asciiPython (machineWith secretProject)
            { callingOptions with mode := .dryRun none }).printed := by
  have hok : (main asciiPython (machineWith secretProject)
      { callingOptions with mode := .dryRun none }).result = .ok () := by
    obtain ⟨draft, hdraft⟩ := exists_prepare_secretProject
    unfold main
    rw [hdraft]
    rfl
  exact ⟨(main_of_alike (alikeFor_fullerProject .api)).1,
    (main_of_alike (alikeFor_fullerProject (.dryRun none))).2 rfl hok⟩

end Icflow.Generate
