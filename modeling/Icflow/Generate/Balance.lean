import Icflow.Generate.Ranking

set_option autoImplicit false

/-!
# Balance between the categories

The categories take turns in the ranking, which is fixed before any file is read.  A turn
that goes to a file that is passed over is lost to its category, and this is all that can
put a category behind (`balanced_up_to_passedOver`).
-/

namespace Icflow.Generate

open Icflow.Foundation

/-- The selected files of a category. -/
def countOf (lower : Name → Name) (selected : List SelectedFile) (category : Category) : Nat :=
  (selected.filter fun file => candidateCategory lower (partsOf file.path) == category).length

/-- The candidates the last loop comes to and passes over: those that cannot be read, are too
large or do not fit what is left of the characters. -/
def passedOver (lower : Name → Name) (limits : Limits) : Nat → Nat → List Candidate → List Candidate
  | _, _, [] => []
  | selected, usedChars, candidate :: rest =>
      if limits.maxFiles ≤ selected then []
      else
        match readTextFile limits.maxFileBytes candidate.node with
        | none => candidate :: passedOver lower limits selected usedChars rest
        | some (content, _) =>
            if limits.maxContextChars < usedChars + content.length then
              candidate :: passedOver lower limits selected usedChars rest
            else passedOver lower limits (selected + 1) (usedChars + content.length) rest

/-- A candidate of the category that can be read and would still fit is not selected. -/
def LeftOver (lower : Name → Name) (limits : Limits) (candidates : List Candidate)
    (selected : List SelectedFile) (category : Category) : Prop :=
  ∃ candidate ∈ candidates, candidateCategory lower candidate.parts = category ∧
    (∃ content count, readTextFile limits.maxFileBytes candidate.node = some (content, count) ∧
      usedChars selected + content.length ≤ limits.maxContextChars) ∧
    ∀ file ∈ selected, file.path ≠ asPosix candidate.parts

/-! ## How far the loop comes -/

section Loop

variable {lower : Name → Name} {limits : Limits}

/-- Of the category. -/
def isOf (lower : Name → Name) (category : Category) (candidate : Candidate) : Bool :=
  candidateCategory lower candidate.parts == category

theorem countOf_cons {candidate : Candidate}
    (hvalid : partsOf (asPosix candidate.parts) = candidate.parts) (content : List Char) (count : Nat)
    (selected : List SelectedFile) (category : Category) :
    countOf lower (selectedFile lower candidate.parts content count :: selected) category =
      countOf lower selected category + (if isOf lower category candidate then 1 else 0) := by
  have hcategory : candidateCategory lower
      (partsOf (selectedFile lower candidate.parts content count).path) =
        candidateCategory lower candidate.parts := congrArg (candidateCategory lower) hvalid
  rw [countOf, List.filter_cons, hcategory]
  unfold isOf
  split <;> simp [countOf]

theorem length_filter_cons {α : Type} (p : α → Bool) (first : α) (rest : List α) :
    ((first :: rest).filter p).length = (rest.filter p).length + (if p first then 1 else 0) := by
  rw [List.filter_cons]
  split <;> simp

/-- What becomes of the candidates that the loop comes to: of each category it selects or
passes over all of them, and what it passes over does not fit, or cannot be read. -/
structure Reached (lower : Name → Name) (limits : Limits) (used : Nat) (reached : List Candidate)
    (files : List SelectedFile) (skipped : List Candidate) : Prop where
  count : ∀ category, (reached.filter (isOf lower category)).length =
    countOf lower files category + (skipped.filter (isOf lower category)).length
  passed : ∀ candidate ∈ reached, ∀ content count,
    readTextFile limits.maxFileBytes candidate.node = some (content, count) →
      selectedFile lower candidate.parts content count ∈ files ∨
        limits.maxContextChars < used + usedChars files + content.length

namespace Reached

variable {used : Nat} {reached skipped : List Candidate} {files : List SelectedFile}
  {candidate : Candidate}

theorem nil : Reached lower limits used [] [] [] :=
  ⟨fun _ => rfl, List.forall_mem_nil _⟩

/-- A candidate that is passed over did not fit even before the later ones were selected. -/
theorem passOver (h : Reached lower limits used reached files skipped)
    (hover : ∀ content count, readTextFile limits.maxFileBytes candidate.node = some (content, count) →
      limits.maxContextChars < used + content.length) :
    Reached lower limits used (candidate :: reached) files (candidate :: skipped) where
  count category := by
    rw [length_filter_cons, length_filter_cons, h.count]
    omega
  passed := by
    refine List.forall_mem_cons.mpr ⟨fun content count hread => ?_, h.passed⟩
    have hlong := hover content count hread
    right
    omega

theorem select {content : List Char} {count : Nat}
    (h : Reached lower limits (used + content.length) reached files skipped)
    (hvalid : partsOf (asPosix candidate.parts) = candidate.parts)
    (hread : readTextFile limits.maxFileBytes candidate.node = some (content, count)) :
    Reached lower limits used (candidate :: reached)
      (selectedFile lower candidate.parts content count :: files) skipped where
  count category := by
    rw [length_filter_cons, countOf_cons hvalid, h.count]
    omega
  passed := by
    have hused : usedChars (selectedFile lower candidate.parts content count :: files) =
        content.length + usedChars files := by
      simp [usedChars, selectedFile]
    refine List.forall_mem_cons.mpr ⟨fun content' count' hread' => ?_, ?_⟩
    · obtain ⟨rfl, rfl⟩ := Prod.mk.inj (Option.some.inj (hread.symm.trans hread'))
      exact Or.inl List.mem_cons_self
    · intro other hother content' count' hread'
      rcases h.passed other hother content' count' hread' with hmem | hover
      · exact Or.inl (List.mem_cons_of_mem _ hmem)
      · right
        rw [hused]
        omega

end Reached

/-- The loop comes to an initial part of the ranking. -/
theorem exists_reached (lower : Name → Name) (limits : Limits) (selected used : Nat)
    {candidates : List Candidate}
    (hvalid : ∀ candidate ∈ candidates, partsOf (asPosix candidate.parts) = candidate.parts) :
    ∃ reached, reached <+: candidates ∧
      Reached lower limits used reached (selectLoop lower limits selected used candidates)
        (passedOver lower limits selected used candidates) := by
  induction candidates generalizing selected used with
  | nil => exact ⟨[], List.prefix_refl _, .nil⟩
  | cons candidate rest ih =>
      obtain ⟨hfirst, hrest⟩ := List.forall_mem_cons.mp hvalid
      have hcons : ∀ {reached}, reached <+: rest → candidate :: reached <+: candidate :: rest :=
        fun hreached => List.cons_prefix_cons.mpr ⟨rfl, hreached⟩
      rw [selectLoop, passedOver]
      by_cases hfull : limits.maxFiles ≤ selected
      · rw [if_pos hfull, if_pos hfull]
        exact ⟨[], List.nil_prefix, .nil⟩
      · rw [if_neg hfull, if_neg hfull]
        cases hread : readTextFile limits.maxFileBytes candidate.node with
        | none =>
            obtain ⟨reached, hreached, h⟩ := ih selected used hrest
            refine ⟨candidate :: reached, hcons hreached, h.passOver fun content count hread' => ?_⟩
            rw [hread] at hread'
            cases hread'
        | some result =>
            obtain ⟨content, count⟩ := result
            dsimp only
            by_cases hbudget : limits.maxContextChars < used + content.length
            · rw [if_pos hbudget, if_pos hbudget]
              obtain ⟨reached, hreached, h⟩ := ih selected used hrest
              refine ⟨candidate :: reached, hcons hreached, h.passOver fun _ _ hread' => ?_⟩
              obtain ⟨rfl, rfl⟩ := Prod.mk.inj (Option.some.inj (hread.symm.trans hread'))
              exact hbudget
            · rw [if_neg hbudget, if_neg hbudget]
              obtain ⟨reached, hreached, h⟩ := ih (selected + 1) (used + content.length) hrest
              exact ⟨candidate :: reached, hcons hreached, h.select hfirst hread⟩

end Loop

/-- A category with a candidate left over is behind another by at most one file and those of
its candidates that have been passed over. -/
theorem balanced_up_to_passedOver (lower : Name → Name) (project : Project) (output : Option Path)
    (limits : Limits) (category other : Category)
    (h : LeftOver lower limits (iterCandidatePaths lower project output)
      (selectProjectFiles lower project output limits) other) :
    countOf lower (selectProjectFiles lower project output limits) category ≤
      countOf lower (selectProjectFiles lower project output limits) other +
        ((passedOver lower limits 0 0 (ranked lower (iterCandidatePaths lower project output))).filter
          fun candidate => candidateCategory lower candidate.parts == other).length + 1 := by
  obtain ⟨candidate, hcandidate, hcategory, ⟨content, count, hread, hfits⟩, hunselected⟩ := h
  have hvalid : ∀ candidate ∈ ranked lower (iterCandidatePaths lower project output),
      partsOf (asPosix candidate.parts) = candidate.parts := fun candidate hmem =>
    partsOf_candidate (mem_ranked.mp hmem)
  obtain ⟨reached, hreached, hloop⟩ := exists_reached lower limits 0 0 hvalid
  have hown := hloop.count category
  have hother := hloop.count other
  have hnotReached : candidate ∉ reached := by
    intro hmem
    rcases hloop.passed candidate hmem content count hread with hselected | hover
    · exact hunselected _ hselected rfl
    · rw [Nat.zero_add] at hover
      exact absurd hfits (Nat.not_le.mpr hover)
  rcases balanced_of_prefix nodup_categoryOrder category_of_mem_bucket (mem_categoryOrder category)
    (mem_categoryOrder other) hreached with hall | hturns
  · have hbucket : candidate ∈ bucket lower (iterCandidatePaths lower project output) other := by
      rw [← filter_ranked]
      exact List.mem_filter.mpr ⟨mem_ranked.mpr hcandidate, beq_iff_eq.mpr hcategory⟩
    rw [← hall] at hbucket
    exact absurd (List.mem_filter.mp hbucket).1 hnotReached
  · unfold selectProjectFiles
    unfold isOf at hown hother
    omega

/-! ## Two empty turns -/

/-- Two sources, an empty header and one that is not empty. -/
def headerProject : Project where
  root := [text "p"]
  entries := [(text "a.c", .file ['x'] true), (text "b.c", .file ['x'] true),
    (text "g.h", .file [] true), (text "h.h", .file ['x'] true)]
  wellFormed := by
    refine ⟨⟨?_, ?_, ?_, ?_⟩, ?_, trivial, ⟨?_, ?_, ?_, ?_⟩, ?_, trivial, ⟨?_, ?_, ?_, ?_⟩, ?_, trivial,
      ⟨?_, ?_, ?_, ?_⟩, ?_, trivial, trivial⟩ <;> decide

/-- Two files at most. -/
def twoFiles : Limits where
  maxFiles := 2
  maxFileBytes := 10
  maxContextChars := 10
  maxFiles_pos := by omega
  maxFileBytes_pos := by omega
  maxContextChars_pos := by omega

/-- Its candidates. -/
def headerCandidates : List Candidate :=
  headerProject.entries.map fun entry => ⟨[entry.1], entry.2⟩

theorem iterCandidatePaths_headerProject :
    iterCandidatePaths asciiLower headerProject none = headerCandidates := by
  have hsorted : sortedByName headerProject.entries = headerProject.entries :=
    List.mergeSort_of_pairwise (by decide)
  have hfiles : headerProject.entries.filter (fun entry => !entry.2.isDir) =
      headerProject.entries := rfl
  have hkept : headerProject.entries.filter (fun entry =>
      Walk.keepsFile ⟨asciiLower, headerProject.root, none⟩ entry.1 entry.2) =
        headerProject.entries := rfl
  have hnone : Walk.subdirectories ⟨asciiLower, headerProject.root, none⟩ []
      headerProject.entries = [] := rfl
  rw [iterCandidatePaths, Walk.candidates, hnone, Walk.fileCandidates, hfiles, hsorted, hkept]
  simp [sortedByName, headerCandidates]

theorem bucket_headerCandidates (category : Category) :
    bucket asciiLower headerCandidates category = headerCandidates.filter fun candidate =>
      candidateCategory asciiLower candidate.parts == category := by
  refine List.mergeSort_of_pairwise ?_
  cases category <;> decide

theorem ranked_headerProject :
    ranked asciiLower headerCandidates =
      [⟨[text "a.c"], .file ['x'] true⟩, ⟨[text "g.h"], .file [] true⟩,
        ⟨[text "b.c"], .file ['x'] true⟩, ⟨[text "h.h"], .file ['x'] true⟩] := by
  have hqueues : categoryOrder.map (bucket asciiLower headerCandidates) =
      [[], [], headerCandidates.take 2, headerCandidates.drop 2] := by
    simp only [categoryOrder, List.map_cons, List.map_nil, bucket_headerCandidates]
    rfl
  rw [ranked, hqueues]
  simp [roundRobin, headerCandidates, headerProject]

theorem selectProjectFiles_headerProject :
    selectProjectFiles asciiLower headerProject none twoFiles =
      [selectedFile asciiLower [text "a.c"] ['x'] 1, selectedFile asciiLower [text "b.c"] ['x'] 1] := by
  rw [selectProjectFiles, iterCandidatePaths_headerProject, ranked_headerProject]
  rfl

theorem leftOver_headerProject :
    LeftOver asciiLower twoFiles (iterCandidatePaths asciiLower headerProject none)
      (selectProjectFiles asciiLower headerProject none twoFiles) .headers := by
  rw [iterCandidatePaths_headerProject, selectProjectFiles_headerProject]
  refine ⟨⟨[text "h.h"], .file ['x'] true⟩, ?_, by decide, ⟨['x'], 1, by decide, by decide⟩, ?_⟩
  · exact List.mem_map.mpr ⟨(text "h.h", .file ['x'] true), by simp [headerProject], rfl⟩
  · rw [List.forall_mem_cons, List.forall_mem_singleton]
    decide

/-- Two sources are selected and no header, although one is left over. -/
theorem not_balanced_headerProject :
    ¬ ∀ category other, LeftOver asciiLower twoFiles (iterCandidatePaths asciiLower headerProject none)
        (selectProjectFiles asciiLower headerProject none twoFiles) other →
      countOf asciiLower (selectProjectFiles asciiLower headerProject none twoFiles) category ≤
        countOf asciiLower (selectProjectFiles asciiLower headerProject none twoFiles) other + 1 := by
  intro h
  have hbalanced := h .sources .headers leftOver_headerProject
  rw [selectProjectFiles_headerProject] at hbalanced
  revert hbalanced
  decide

/-- One header has been passed over. -/
theorem balanced_up_to_passedOver_headerProject :
    countOf asciiLower (selectProjectFiles asciiLower headerProject none twoFiles) .sources ≤
      countOf asciiLower (selectProjectFiles asciiLower headerProject none twoFiles) .headers +
        ((passedOver asciiLower twoFiles 0 0
          (ranked asciiLower (iterCandidatePaths asciiLower headerProject none))).filter
            fun candidate => candidateCategory asciiLower candidate.parts == .headers).length + 1 :=
  balanced_up_to_passedOver asciiLower headerProject none twoFiles .sources .headers
    leftOver_headerProject

end Icflow.Generate
