import Icflow.Foundation.RoundRobin
import Icflow.Foundation.Utf8
import Icflow.Generate.ProjectTree
import Mathlib.Algebra.GroupWithZero.Nat

set_option autoImplicit false

/-!
# Selecting project files

`select_project_files` sorts the candidates of each category by priority, takes them in
turns from the four categories and keeps those that fit the limits.  A file is kept with
the text read from it, which has no surrogates and is a list of characters.
-/

namespace Icflow.Generate

open Icflow.Foundation

/-- The limits of the command line, read by `positive_int`. -/
structure Limits where
  maxFiles : Nat
  maxFileBytes : Nat
  maxContextChars : Nat
  maxFiles_pos : 0 < maxFiles
  maxFileBytes_pos : 0 < maxFileBytes
  maxContextChars_pos : 0 < maxContextChars

/-- `DEFAULT_MAX_FILES`, `DEFAULT_MAX_FILE_BYTES`, `DEFAULT_MAX_CONTEXT_CHARS` -/
def Limits.default : Limits where
  maxFiles := 60
  maxFileBytes := 64000
  maxContextChars := 220000
  maxFiles_pos := by omega
  maxFileBytes_pos := by omega
  maxContextChars_pos := by omega

/-- `SelectedFile` -/
structure SelectedFile where
  path : Name
  content : List Char
  byteCount : Nat
  priority : Int

/-- The directory names that mark tests. -/
def testWords : List Name := [text "test", text "tests", text "testing", text "spec", text "specs"]

/-- The directory names that mark an interface. -/
def interfaceWords : List Name := [text "include", text "api", text "public"]

/-- The suffixes of headers. -/
def headerSuffixes : List Name := [text ".h", text ".hh", text ".hpp", text ".hxx"]

section Ranking

variable (lower : Name → Name)

/-- `candidate_priority` -/
def candidatePriority (parts : Path) : Int :=
  let name := parts.getLastD []
  let loweredParts := parts.map lower
  let loweredSuffix := lower (suffix name)
  (if importantNames.contains name then 100 else 0) +
    (if loweredParts.any testWords.contains then 80 else 0) +
    (if loweredParts.any interfaceWords.contains then 40 else 0) +
    (if headerSuffixes.contains loweredSuffix then 30 else 0) +
    (if sourceSuffixes.contains loweredSuffix then 20 else 0) - (parts.length : Int)

/-- The keys of `buckets`. -/
inductive Category where
  | metadata
  | tests
  | sources
  | headers
  deriving DecidableEq

/-- `candidate_category` -/
def candidateCategory (parts : Path) : Category :=
  if importantNames.contains (parts.getLastD []) then .metadata
  else if (parts.map lower).any testWords.contains then .tests
  else if headerSuffixes.contains (lower (suffix (parts.getLastD []))) then .headers
  else .sources

/-- The order of the sort keys `(-priority, path)`. -/
def ranksBefore (a b : Candidate) : Bool :=
  decide (candidatePriority lower b.parts < candidatePriority lower a.parts) ||
    (candidatePriority lower a.parts == candidatePriority lower b.parts &&
      decide (asPosix a.parts ≤ asPosix b.parts))

/-- `buckets[category]`, sorted -/
def bucket (candidates : List Candidate) (category : Category) : List Candidate :=
  (candidates.filter fun candidate => candidateCategory lower candidate.parts == category).mergeSort
    (ranksBefore lower)

/-- `category_order` -/
def categoryOrder : List Category := [.metadata, .tests, .sources, .headers]

/-- `ranked` -/
def ranked (candidates : List Candidate) : List Candidate :=
  roundRobin (categoryOrder.map (bucket lower candidates))

end Ranking

/-- `read_text_file`.  Pipes and devices have size zero, and nothing but files and these
is yielded by the walk. -/
def readTextFile (maxFileBytes : Nat) : Tree → Option (List Char × Nat)
  | .file bytes readable =>
      if bytes.length = 0 ∨ maxFileBytes < bytes.length then none
      else if !readable then none
      else if bytes.contains '\x00' then none
      else (utf8Decode bytes).map fun content => (content, bytes.length)
  | _ => none

/-- What is appended to `selected`. -/
def selectedFile (lower : Name → Name) (parts : Path) (content : List Char) (byteCount : Nat) :
    SelectedFile :=
  ⟨asPosix parts, content, byteCount, candidatePriority lower parts⟩

/-- The last loop, with the number of files selected and of characters used so far. -/
def selectLoop (lower : Name → Name) (limits : Limits) : Nat → Nat → List Candidate → List SelectedFile
  | _, _, [] => []
  | selected, usedChars, candidate :: rest =>
      if limits.maxFiles ≤ selected then []
      else
        match readTextFile limits.maxFileBytes candidate.node with
        | none => selectLoop lower limits selected usedChars rest
        | some (content, byteCount) =>
            if limits.maxContextChars < usedChars + content.length then
              selectLoop lower limits selected usedChars rest
            else
              selectedFile lower candidate.parts content byteCount ::
                selectLoop lower limits (selected + 1) (usedChars + content.length) rest

/-- `select_project_files` -/
def selectProjectFiles (lower : Name → Name) (project : Project) (output : Option Path)
    (limits : Limits) : List SelectedFile :=
  selectLoop lower limits 0 0 (ranked lower (iterCandidatePaths lower project output))

/-- What `read_text_file` asks of a file, and what it returns. -/
theorem readTextFile_iff {maxFileBytes : Nat} {node : Tree} {content : List Char} {count : Nat} :
    readTextFile maxFileBytes node = some (content, count) ↔
      ∃ bytes, node = .file bytes true ∧ bytes ≠ [] ∧ '\x00' ∉ bytes ∧
        bytes.length ≤ maxFileBytes ∧ utf8Decode bytes = some content ∧ count = bytes.length := by
  cases node with
  | directory entries => simp [readTextFile]
  | symlink toDirectory => simp [readTextFile]
  | special => simp [readTextFile]
  | file bytes readable =>
      have hsize : bytes.length = 0 ∨ maxFileBytes < bytes.length ↔
          ¬ (bytes ≠ [] ∧ bytes.length ≤ maxFileBytes) := by
        rw [List.length_eq_zero_iff]
        by_cases hnil : bytes = [] <;> simp [hnil]
      rw [readTextFile]
      by_cases hgood : bytes ≠ [] ∧ bytes.length ≤ maxFileBytes
      · rw [if_neg (by rwa [hsize, not_not])]
        cases readable with
        | false => simp
        | true =>
            by_cases hnul : '\x00' ∈ bytes
            · simp [hnul]
            · simp [hnul, hgood, eq_comm]
      · rw [if_pos (by rwa [hsize])]
        constructor
        · intro h
          cases h
        · rintro ⟨found, heq, hnil, _, hlength, _⟩
          obtain ⟨rfl, _⟩ := Tree.file.inj heq
          exact absurd ⟨hnil, hlength⟩ hgood

/-! ## What is selected -/

section Selected

variable {lower : Name → Name} {limits : Limits} {candidates : List Candidate}

theorem mem_categoryOrder (category : Category) : category ∈ categoryOrder := by
  cases category <;> simp [categoryOrder]

/-- The ranking holds the candidates. -/
theorem mem_ranked {candidate : Candidate} :
    candidate ∈ ranked lower candidates ↔ candidate ∈ candidates := by
  have hbucket : ∀ category, candidate ∈ bucket lower candidates category ↔
      candidate ∈ candidates ∧ candidateCategory lower candidate.parts = category := by
    intro category
    rw [bucket, (List.mergeSort_perm _ _).mem_iff, List.mem_filter, beq_iff_eq]
  rw [ranked, mem_roundRobin]
  constructor
  · intro h
    obtain ⟨queue, hqueue, hmem⟩ := h
    obtain ⟨category, _, rfl⟩ := List.mem_map.mp hqueue
    exact ((hbucket category).mp hmem).1
  · intro h
    exact ⟨_, List.mem_map_of_mem (mem_categoryOrder (candidateCategory lower candidate.parts)),
      (hbucket _).mpr ⟨h, rfl⟩⟩

/-- A selected file is one of the candidates, with the text read from it. -/
theorem exists_of_mem_selectLoop {selected usedChars : Nat} {file : SelectedFile}
    (h : file ∈ selectLoop lower limits selected usedChars candidates) :
    ∃ candidate ∈ candidates,
      readTextFile limits.maxFileBytes candidate.node = some (file.content, file.byteCount) ∧
      file = selectedFile lower candidate.parts file.content file.byteCount := by
  induction candidates generalizing selected usedChars with
  | nil => exact absurd h List.not_mem_nil
  | cons candidate rest ih =>
      have hlater : ∀ {selected usedChars : Nat},
          file ∈ selectLoop lower limits selected usedChars rest →
          ∃ found ∈ candidate :: rest,
            readTextFile limits.maxFileBytes found.node = some (file.content, file.byteCount) ∧
            file = selectedFile lower found.parts file.content file.byteCount := by
        intro selected usedChars hmem
        obtain ⟨found, hfound, hfile⟩ := ih hmem
        exact ⟨found, List.mem_cons_of_mem _ hfound, hfile⟩
      unfold selectLoop at h
      by_cases hfull : limits.maxFiles ≤ selected
      · rw [if_pos hfull] at h
        exact absurd h List.not_mem_nil
      · rw [if_neg hfull] at h
        cases hread : readTextFile limits.maxFileBytes candidate.node with
        | none =>
            rw [hread] at h
            exact hlater h
        | some result =>
            simp only [hread] at h
            by_cases hbudget : limits.maxContextChars < usedChars + result.1.length
            · rw [if_pos hbudget] at h
              exact hlater h
            · rw [if_neg hbudget] at h
              rcases List.mem_cons.mp h with heq | hmem
              · subst heq
                exact ⟨candidate, List.mem_cons_self, hread, rfl⟩
              · exact hlater hmem

/-- Nothing is selected exactly when no candidate can be read that fits the budget alone. -/
theorem selectLoop_eq_nil_iff :
    selectLoop lower limits 0 0 candidates = [] ↔
      ∀ candidate ∈ candidates, ∀ content byteCount,
        readTextFile limits.maxFileBytes candidate.node = some (content, byteCount) →
          limits.maxContextChars < content.length := by
  have hfiles : ¬ limits.maxFiles ≤ 0 := Nat.not_le.mpr limits.maxFiles_pos
  induction candidates with
  | nil => simp [selectLoop]
  | cons candidate rest ih =>
      rw [selectLoop, if_neg hfiles, List.forall_mem_cons]
      cases hread : readTextFile limits.maxFileBytes candidate.node with
      | none => simp [ih]
      | some result =>
          obtain ⟨content, byteCount⟩ := result
          by_cases hbudget : limits.maxContextChars < content.length
          · simp [hbudget, ih]
          · simp only [Nat.zero_add, if_neg hbudget, reduceCtorEq, false_iff]
            exact fun h => hbudget (h.1 content byteCount rfl)

/-- The characters of the candidates that can be read. -/
def readableChars (maxFileBytes : Nat) (candidates : List Candidate) : Nat :=
  ((candidates.filterMap fun candidate => readTextFile maxFileBytes candidate.node).map
    fun result => result.1.length).sum

/-- With limits that are never reached every candidate that can be read is selected. -/
theorem mem_selectLoop_of_ample {selected usedChars : Nat}
    (hfiles : selected + candidates.length ≤ limits.maxFiles)
    (hchars : usedChars + readableChars limits.maxFileBytes candidates ≤ limits.maxContextChars)
    {candidate : Candidate} (hcandidate : candidate ∈ candidates) {content : List Char}
    {byteCount : Nat}
    (hread : readTextFile limits.maxFileBytes candidate.node = some (content, byteCount)) :
    selectedFile lower candidate.parts content byteCount ∈
      selectLoop lower limits selected usedChars candidates := by
  induction candidates generalizing selected usedChars with
  | nil => exact absurd hcandidate List.not_mem_nil
  | cons first rest ih =>
      rw [List.length_cons] at hfiles
      rw [selectLoop, if_neg (by omega)]
      cases hfirst : readTextFile limits.maxFileBytes first.node with
      | none =>
          have hrest : readableChars limits.maxFileBytes (first :: rest) = readableChars limits.maxFileBytes rest := by
            simp [readableChars, hfirst]
          rw [hrest] at hchars
          rcases List.mem_cons.mp hcandidate with rfl | hmem
          · rw [hfirst] at hread
            cases hread
          · exact ih (by omega) hchars hmem
      | some result =>
          have hrest : readableChars limits.maxFileBytes (first :: rest) =
              result.1.length + readableChars limits.maxFileBytes rest := by
            simp [readableChars, hfirst]
          rw [hrest] at hchars
          dsimp only
          rw [if_neg (by omega)]
          rcases List.mem_cons.mp hcandidate with rfl | hmem
          · obtain rfl := Option.some.inj (hfirst.symm.trans hread)
            exact List.mem_cons_self
          · exact List.mem_cons_of_mem _ (ih (by omega) (by omega) hmem)

/-- A run has no eligible file exactly when none that the walk yields can be read and fits the
budget alone. -/
theorem selectProjectFiles_eq_nil_iff {project : Project} {output : Option Path} :
    selectProjectFiles lower project output limits = [] ↔
      ∀ candidate ∈ iterCandidatePaths lower project output, ∀ content byteCount,
        readTextFile limits.maxFileBytes candidate.node = some (content, byteCount) →
          limits.maxContextChars < content.length := by
  rw [selectProjectFiles, selectLoop_eq_nil_iff]
  exact forall_congr' fun candidate => imp_congr_left mem_ranked

end Selected

end Icflow.Generate
