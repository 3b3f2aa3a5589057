import Icflow.Generate.Selection

set_option autoImplicit false

/-!
# What may be sent

The selected files are sent to the API, so a selected file has to be a file of the
project itself, outside the directories that are excluded and outside the output
directory, and no component of its path may name a secret.  The walk looks for secrets
in the file name only: that is enough exactly when no file worth reading is in a
directory named after a secret (`permitted_iff`).
-/

namespace Icflow.Generate

open Icflow.Foundation

/-- The root directory of a project, as a tree. -/
def Project.tree (project : Project) : Tree := .directory project.entries

theorem Project.tree_wellFormed (project : Project) : project.tree.WellFormed :=
  project.wellFormed

/-- What a file has to be to be sent, by its path below the project root. -/
structure Permitted (lower : Name → Name) (project : Project) (output : Option Path)
    (parts : Path) : Prop where
  /-- neither the file nor a directory on the way is a link -/
  notLinked : ∀ reached, reached <+: parts → ∀ toDirectory,
    project.tree.entry reached ≠ some (.symlink toDirectory)
  notExcluded : ∀ dir ∈ parts.dropLast, isExcludedDirectory dir = false
  /-- it is not below an output directory that is inside the project -/
  notOutput : ∀ directory, output = some directory → project.root <+: directory →
    directory <+: project.root ++ parts → directory = project.root ++ parts
  notSensitive : ∀ name ∈ parts, isSensitiveName lower name = false

/-- Bytes that `read_text_file` returns when they are few enough. -/
structure IsText (bytes : List Char) : Prop where
  ne_nil : bytes ≠ []
  nul_notMem : '\x00' ∉ bytes
  decodes : (utf8Decode bytes).isSome = true

/-- No text file that is worth reading, and reached without entering a pruned
directory, is in a directory named after a secret. -/
def NoSecretDirectory (lower : Name → Name) (project : Project) (output : Option Path) : Prop :=
  ∀ dirs name bytes, project.tree.entry (dirs ++ [name]) = some (.file bytes true) →
    IsText bytes → isEligibleName lower name = true → isSensitiveName lower name = false →
    (∀ dir ∈ dirs, isExcludedDirectory dir = false) →
    (∀ reached, reached <+: dirs → reached ≠ [] → ∀ directory, output = some directory →
      ¬ directory <+: project.root ++ reached) →
    ∀ dir ∈ dirs, isSensitiveName lower dir = false

variable {lower : Name → Name} {project : Project} {output : Option Path}

theorem readTextFile_eq_some {maxFileBytes : Nat} {node : Tree} {result : List Char × Nat}
    (h : readTextFile maxFileBytes node = some result) :
    ∃ bytes, node = .file bytes true ∧ IsText bytes := by
  obtain ⟨bytes, hnode, hnil, hnul, _, hdecode, _⟩ := readTextFile_iff.mp h
  exact ⟨bytes, hnode, hnil, hnul, Option.isSome_of_eq_some hdecode⟩

theorem readTextFile_of_isText {bytes : List Char} (h : IsText bytes) :
    ∃ result, readTextFile bytes.length (.file bytes true) = some result := by
  obtain ⟨content, hcontent⟩ := Option.isSome_iff_exists.mp h.decodes
  have hfile : readTextFile bytes.length (.file bytes true) = some (content, bytes.length) :=
    readTextFile_iff.mpr ⟨bytes, rfl, h.ne_nil, h.nul_notMem, Nat.le_refl _, hcontent, rfl⟩
  exact ⟨_, hfile⟩

/-- Every candidate that can be read is selected under some limits. -/
theorem exists_limits_selected {candidate : Candidate} {bytes : List Char}
    (hcandidate : candidate ∈ iterCandidatePaths lower project output)
    (hnode : candidate.node = .file bytes true) (htext : IsText bytes) :
    ∃ limits, ∃ file ∈ selectProjectFiles lower project output limits,
      file.path = asPosix candidate.parts := by
  obtain ⟨⟨content, byteCount⟩, hread⟩ := readTextFile_of_isText htext
  let files := ranked lower (iterCandidatePaths lower project output)
  let limits : Limits :=
    { maxFiles := files.length + 1
      maxFileBytes := bytes.length
      maxContextChars := readableChars bytes.length files + 1
      maxFiles_pos := Nat.succ_pos _
      maxFileBytes_pos := List.length_pos_of_ne_nil htext.ne_nil
      maxContextChars_pos := Nat.succ_pos _ }
  have hselected : selectedFile lower candidate.parts content byteCount ∈
      selectLoop lower limits 0 0 files := by
    refine mem_selectLoop_of_ample ?_ ?_ (mem_ranked.mpr hcandidate) ?_
    · rw [Nat.zero_add]
      exact Nat.le_succ _
    · rw [Nat.zero_add]
      exact Nat.le_succ _
    · rw [hnode]
      exact hread
  exact ⟨limits, _, hselected, rfl⟩

/-- Where a selected file comes from. -/
theorem exists_yields_of_selected {limits : Limits} {file : SelectedFile}
    (h : file ∈ selectProjectFiles lower project output limits) :
    ∃ dirs name bytes, partsOf file.path = dirs ++ [name] ∧ IsText bytes ∧
      Walk.Yields ⟨lower, project.root, output⟩ [] project.tree dirs name
        (.file bytes true) := by
  obtain ⟨candidate, hmem, hread, hfile⟩ := exists_of_mem_selectLoop h
  obtain ⟨bytes, hnode, htext⟩ := readTextFile_eq_some hread
  obtain ⟨dirs, name, hparts, hyields⟩ :=
    (Walk.mem_candidates project.tree_wellFormed).mp (mem_ranked.mp hmem)
  rw [hnode] at hyields
  refine ⟨dirs, name, bytes, ?_, htext, hyields⟩
  rw [hfile]
  rw [List.nil_append] at hparts
  rw [selectedFile, hparts]
  exact partsOf_asPosix (List.concat_ne_nil name dirs)
    (Tree.valid_of_entry project.tree_wellFormed hyields.entry)

section Yielded

variable {dirs : Path} {name : Name} {node : Tree}
  (h : Walk.Yields ⟨lower, project.root, output⟩ [] project.tree dirs name node)
include h

/-- No link is on the way to a yielded file. -/
theorem Walk.Yields.notLinked {reached : Path} (hreached : reached <+: dirs ++ [name])
    (toDirectory : Bool) : project.tree.entry reached ≠ some (.symlink toDirectory) := by
  intro hlink
  obtain ⟨rest, hrest⟩ := hreached
  have hentry := h.entry
  rw [← hrest, Tree.entry_append, hlink, Option.bind_some] at hentry
  cases rest with
  | nil =>
      obtain rfl := Option.some.inj hentry
      cases (Walk.keepsFile_iff.mp h.keepsFile).1
  | cons first rest =>
      have hleaf : ∀ entries, Tree.symlink toDirectory ≠ .directory entries := fun _ => nofun
      rw [Tree.entry_of_leaf hleaf (List.cons_ne_nil _ _)] at hentry
      cases hentry

/-- A yielded file is not below the output directory. -/
theorem Walk.Yields.notOutput {directory : Path} (houtput : output = some directory)
    (hroot : directory ≠ project.root) (hinside : project.root <+: directory)
    (hbelow : directory <+: project.root ++ (dirs ++ [name])) :
    directory = project.root ++ (dirs ++ [name]) := by
  obtain ⟨reached, rfl⟩ := hinside
  have hprefix : reached <+: dirs ++ [name] := (List.prefix_append_right_inj _).mp hbelow
  rcases List.prefix_concat_iff.mp hprefix with heq | hdirs
  · rw [heq]
  · have hne : reached ≠ [] := by
      intro hnil
      exact hroot (by rw [hnil, List.append_nil])
    have hpruned := h.apart reached hdirs hne
    rw [Walk.insideOutput, houtput] at hpruned
    exact absurd (List.prefix_refl _) (of_decide_eq_false hpruned)

end Yielded

/-- Whatever the limits, the selected files are permitted exactly when no text file
worth reading is in a directory named after a secret. -/
theorem permitted_iff (lower : Name → Name) (project : Project) (output : Option Path)
    (houtput : output ≠ some project.root) :
    (∀ limits, ∀ file ∈ selectProjectFiles lower project output limits,
      Permitted lower project output (partsOf file.path)) ↔
      NoSecretDirectory lower project output := by
  constructor
  · intro h dirs name bytes hentry htext heligible hsensitive hwanted hapart dir hdir
    have hyields : Walk.Yields ⟨lower, project.root, output⟩ [] project.tree dirs name
        (.file bytes true) := by
      refine ⟨hentry, rfl, Walk.keepsFile_iff.mpr ⟨rfl, hsensitive, heligible⟩, hwanted, ?_⟩
      intro reached hreached hne
      cases houtput : output with
      | none => rfl
      | some directory =>
          exact decide_eq_false (hapart reached hreached hne directory houtput)
    have hcandidate : (⟨dirs ++ [name], .file bytes true⟩ : Candidate) ∈
        iterCandidatePaths lower project output :=
      (Walk.mem_candidates project.tree_wellFormed).mpr ⟨dirs, name, rfl, hyields⟩
    obtain ⟨limits, file, hfile, hpath⟩ := exists_limits_selected hcandidate rfl htext
    have hparts : partsOf file.path = dirs ++ [name] := by
      rw [hpath]
      exact partsOf_asPosix (List.concat_ne_nil name dirs)
        (Tree.valid_of_entry project.tree_wellFormed hentry)
    refine (h limits file hfile).notSensitive dir ?_
    rw [hparts]
    exact List.mem_append_left _ hdir
  · intro h limits file hfile
    obtain ⟨dirs, name, bytes, hparts, htext, hyields⟩ := exists_yields_of_selected hfile
    obtain ⟨_, hsensitive, heligible⟩ := Walk.keepsFile_iff.mp hyields.keepsFile
    rw [hparts]
    refine ⟨fun reached hreached => hyields.notLinked hreached, ?_, ?_, ?_⟩
    · rw [List.dropLast_concat]
      exact hyields.wanted
    · intro directory hdirectory hinside hbelow
      refine hyields.notOutput hdirectory ?_ hinside hbelow
      rintro rfl
      exact houtput hdirectory
    · have hdirs : ∀ dir ∈ dirs, isSensitiveName lower dir = false := by
        refine h dirs name bytes hyields.entry htext heligible hsensitive hyields.wanted ?_
        intro reached hreached hne directory hdirectory hbelow
        have hpruned := hyields.apart reached hreached hne
        rw [Walk.insideOutput, hdirectory] at hpruned
        exact of_decide_eq_false hpruned hbelow
      rw [List.forall_mem_append, List.forall_mem_singleton]
      exact ⟨hdirs, hsensitive⟩

/-! ## A project with a script in a directory `secrets` -/

/-- The script. -/
def deployScript : Tree := .file ['x'] true

/-- Its directory. -/
def secretsDirectory : Tree := .directory [(text "deploy.sh", deployScript)]

/-- Its path below the project. -/
def deployParts : Path := [text "secrets", text "deploy.sh"]

/-- The project. -/
def secretProject : Project where
  root := [text "project"]
  entries := [(text "secrets", secretsDirectory)]
  wellFormed := by
    refine ⟨⟨?_, ?_, ?_, ?_⟩, ?_, ⟨⟨?_, ?_, ?_, ?_⟩, ?_, trivial, trivial⟩, trivial⟩ <;> decide

/-- Where the tests for it go. -/
def generatedDirectory : Path := [text "generated"]

/-- The walk of that project. -/
def secretWalk : Walk := ⟨asciiLower, secretProject.root, some generatedDirectory⟩

theorem iterCandidatePaths_secretProject :
    iterCandidatePaths asciiLower secretProject (some generatedDirectory) =
      [⟨deployParts, deployScript⟩] := by
  have hfile : secretWalk.keepsFile (text "deploy.sh") deployScript = true := by decide
  have hkept : secretWalk.keepsDirectory [] (text "secrets") secretsDirectory = true := by decide
  have hscript : deployScript.isDir = false := rfl
  have hsecrets : secretsDirectory.isDir = true := rfl
  have hbelow : secretWalk.candidates [text "secrets"] secretsDirectory =
      [⟨deployParts, deployScript⟩] := by
    simp [secretsDirectory, Walk.candidates, Walk.subdirectories, Walk.fileCandidates,
      sortedByName, hfile, hscript, deployParts]
  change secretWalk.candidates [] (.directory [(text "secrets", secretsDirectory)]) = _
  rw [Walk.candidates, Walk.subdirectories, hsecrets, hkept]
  simp [Walk.subdirectories, Walk.fileCandidates, sortedByName, hsecrets, hbelow]

theorem selectProjectFiles_secretProject :
    selectProjectFiles asciiLower secretProject (some generatedDirectory) Limits.default =
      [selectedFile asciiLower deployParts ['x'] 1] := by
  have hranked : ranked asciiLower [⟨deployParts, deployScript⟩] =
      [⟨deployParts, deployScript⟩] := by
    have hcategory : candidateCategory asciiLower deployParts = .sources := by decide
    simp [ranked, categoryOrder, bucket, hcategory, roundRobin]
  rw [selectProjectFiles, iterCandidatePaths_secretProject, hranked]
  rfl

/-- With the default limits the script is selected. -/
theorem not_permitted_secretProject :
    ¬ ∀ file ∈ selectProjectFiles asciiLower secretProject (some generatedDirectory) Limits.default,
      Permitted asciiLower secretProject (some generatedDirectory) (partsOf file.path) := by
  intro h
  rw [selectProjectFiles_secretProject] at h
  have hpermitted := h _ List.mem_cons_self
  have hparts : partsOf (selectedFile asciiLower deployParts ['x'] 1).path = deployParts := by
    decide
  rw [hparts] at hpermitted
  have hname := hpermitted.notSensitive (text "secrets") List.mem_cons_self
  exact absurd hname (by decide)

theorem permitted_iff_secretProject :
    some generatedDirectory ≠ some secretProject.root ∧
      ((∀ limits, ∀ file ∈
          selectProjectFiles asciiLower secretProject (some generatedDirectory) limits,
        Permitted asciiLower secretProject (some generatedDirectory) (partsOf file.path)) ↔
        NoSecretDirectory asciiLower secretProject (some generatedDirectory)) := by
  have houtput : some generatedDirectory ≠ some secretProject.root := by decide
  exact ⟨houtput, permitted_iff asciiLower secretProject (some generatedDirectory) houtput⟩

end Icflow.Generate
