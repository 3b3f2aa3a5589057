import Icflow.Foundation.Greedy
import Icflow.Generate.Selection

set_option autoImplicit false

/-!
# The selection is greedy

The ranking is a rearrangement of the candidates, and the last loop of
`select_project_files` is a greedy selection from it (`selection_greedy`).
-/

namespace Icflow.Generate

open Icflow.Foundation

/-- The characters of the files selected so far. -/
def usedChars (selected : List SelectedFile) : Nat :=
  (selected.map fun file => file.content.length).sum

/-- The candidate is taken as `file` when the loop comes to it with `selected`. -/
structure Takes (lower : Name → Name) (limits : Limits) (selected : List SelectedFile)
    (candidate : Candidate) (file : SelectedFile) : Prop where
  room : selected.length < limits.maxFiles
  /-- it is not empty, has no NUL, is UTF-8 and not too large -/
  reads : ∃ bytes, candidate.node = .file bytes true ∧ bytes ≠ [] ∧ '\x00' ∉ bytes ∧
    bytes.length ≤ limits.maxFileBytes ∧ utf8Decode bytes = some file.content ∧
    file.byteCount = bytes.length
  fits : usedChars selected + file.content.length ≤ limits.maxContextChars
  path : file.path = asPosix candidate.parts
  priority : file.priority = candidatePriority lower candidate.parts

/-- `a` is not behind `b` in their category: by priority, then by path. -/
def Precedes (lower : Name → Name) (a b : Candidate) : Prop :=
  candidatePriority lower b.parts < candidatePriority lower a.parts ∨
    candidatePriority lower a.parts = candidatePriority lower b.parts ∧
      asPosix a.parts ≤ asPosix b.parts

variable {lower : Name → Name} {limits : Limits} {candidates : List Candidate}

/-! ## The ranking -/

theorem ranksBefore_iff {a b : Candidate} : ranksBefore lower a b = true ↔ Precedes lower a b := by
  simp [ranksBefore, Precedes]

theorem ranksBefore_trans {a b c : Candidate} (hab : ranksBefore lower a b = true)
    (hbc : ranksBefore lower b c = true) : ranksBefore lower a c = true := by
  rw [ranksBefore_iff] at hab hbc ⊢
  rcases hab with hab | ⟨hab, hpath⟩
  · rcases hbc with hbc | ⟨hbc, _⟩
    · exact Or.inl (hbc.trans hab)
    · exact Or.inl (by omega)
  · rcases hbc with hbc | ⟨hbc, hpath'⟩
    · exact Or.inl (by omega)
    · exact Or.inr ⟨hab.trans hbc, hpath.trans hpath'⟩

theorem ranksBefore_total (a b : Candidate) :
    (ranksBefore lower a b || ranksBefore lower b a) = true := by
  rw [Bool.or_eq_true, ranksBefore_iff, ranksBefore_iff]
  rcases lt_trichotomy (candidatePriority lower a.parts) (candidatePriority lower b.parts) with
    hlt | heq | hgt
  · exact Or.inr (Or.inl hlt)
  · rcases le_total (asPosix a.parts) (asPosix b.parts) with hle | hle
    · exact Or.inl (Or.inr ⟨heq, hle⟩)
    · exact Or.inr (Or.inr ⟨heq.symm, hle⟩)
  · exact Or.inl (Or.inl hgt)

theorem category_of_mem_bucket (category : Category) :
    ∀ candidate ∈ bucket lower candidates category,
      candidateCategory lower candidate.parts = category := by
  intro candidate hcandidate
  have hmem := (List.mergeSort_perm _ _).mem_iff.mp hcandidate
  exact beq_iff_eq.mp (List.mem_filter.mp hmem).2

theorem nodup_categoryOrder : categoryOrder.Nodup := by decide

/-- The candidates of a category come in the order of their bucket. -/
theorem filter_ranked (category : Category) :
    (ranked lower candidates).filter (fun candidate =>
        candidateCategory lower candidate.parts == category) =
      bucket lower candidates category := by
  unfold ranked
  exact filter_roundRobin nodup_categoryOrder category_of_mem_bucket (mem_categoryOrder category)

theorem pairwise_bucket (category : Category) :
    (bucket lower candidates category).Pairwise (Precedes lower) := by
  have htrans : ∀ a b c, ranksBefore lower a b = true → ranksBefore lower b c = true →
      ranksBefore lower a c = true := fun _ _ _ => ranksBefore_trans
  have hsorted := List.pairwise_mergeSort htrans ranksBefore_total
    (candidates.filter fun candidate => candidateCategory lower candidate.parts == category)
  refine hsorted.imp ?_
  intro a b hab
  exact ranksBefore_iff.mp hab

/-- No candidate is lost and none is taken twice. -/
theorem ranked_perm (lower : Name → Name) (candidates : List Candidate) :
    (ranked lower candidates).Perm candidates := by
  have hbuckets : List.Forall₂ List.Perm (categoryOrder.map (bucket lower candidates))
      (categoryOrder.map fun category => candidates.filter fun candidate =>
        candidateCategory lower candidate.parts == category) := by
    rw [List.forall₂_map_left_iff, List.forall₂_map_right_iff, List.forall₂_same]
    exact fun category _ => List.mergeSort_perm _ _
  exact (roundRobin_perm _).trans ((List.Perm.flatten_congr hbuckets).trans
    (flatten_filter_perm nodup_categoryOrder fun candidate _ => mem_categoryOrder _))

/-! ## Taking a candidate -/

/-- What the loop asks of a candidate. -/
theorem takes_iff {selected : List SelectedFile} {candidate : Candidate} {file : SelectedFile} :
    Takes lower limits selected candidate file ↔
      selected.length < limits.maxFiles ∧ ∃ content count,
        readTextFile limits.maxFileBytes candidate.node = some (content, count) ∧
        usedChars selected + content.length ≤ limits.maxContextChars ∧
        file = selectedFile lower candidate.parts content count := by
  constructor
  · rintro ⟨hroom, ⟨bytes, hnode, hnil, hnul, hlength, hdecode, hcount⟩, hfits, hpath, hpriority⟩
    refine ⟨hroom, file.content, file.byteCount, ?_, hfits, ?_⟩
    · exact readTextFile_iff.mpr ⟨bytes, hnode, hnil, hnul, hlength, hdecode, hcount⟩
    · rw [selectedFile, ← hpath, ← hpriority]
  · rintro ⟨hroom, content, count, hread, hfits, rfl⟩
    obtain ⟨bytes, hnode, hnil, hnul, hlength, hdecode, hcount⟩ := readTextFile_iff.mp hread
    exact ⟨hroom, ⟨bytes, hnode, hnil, hnul, hlength, hdecode, hcount⟩, hfits, rfl, rfl⟩

theorem takes_functional (selected : List SelectedFile) (candidate : Candidate)
    (file file' : SelectedFile) (h : Takes lower limits selected candidate file)
    (h' : Takes lower limits selected candidate file') : file = file' := by
  obtain ⟨_, content, count, hread, _, rfl⟩ := takes_iff.mp h
  obtain ⟨_, content', count', hread', _, rfl⟩ := takes_iff.mp h'
  obtain ⟨rfl, rfl⟩ := Prod.mk.inj (Option.some.inj (hread.symm.trans hread'))
  rfl

/-! ## The loop -/

theorem usedChars_concat (selected : List SelectedFile) (file : SelectedFile) :
    usedChars (selected ++ [file]) = usedChars selected + file.content.length := by
  simp [usedChars]

/-- The loop goes on with a greedy selection. -/
theorem selectLoop_greedy {reached : List Candidate} {selected : List SelectedFile}
    (h : Greedy (Takes lower limits) reached selected) (candidates : List Candidate) :
    Greedy (Takes lower limits) (reached ++ candidates)
      (selected ++ selectLoop lower limits selected.length (usedChars selected) candidates) := by
  induction candidates generalizing reached selected with
  | nil => simpa [selectLoop] using h
  | cons candidate rest ih =>
      rw [← List.singleton_append, ← List.append_assoc, List.singleton_append, selectLoop]
      by_cases hfull : limits.maxFiles ≤ selected.length
      · rw [if_pos hfull, List.append_nil, List.append_assoc, List.singleton_append]
        exact h.pass_all fun _ _ _ htakes => absurd htakes.room (Nat.not_lt.mpr hfull)
      · rw [if_neg hfull]
        cases hread : readTextFile limits.maxFileBytes candidate.node with
        | none =>
            refine ih (h.pass fun file htakes => ?_)
            obtain ⟨_, content, count, hread', _⟩ := takes_iff.mp htakes
            rw [hread] at hread'
            cases hread'
        | some result =>
            obtain ⟨content, count⟩ := result
            dsimp only
            by_cases hbudget : limits.maxContextChars < usedChars selected + content.length
            · rw [if_pos hbudget]
              refine ih (h.pass fun file htakes => ?_)
              obtain ⟨_, content', count', hread', hfits, _⟩ := takes_iff.mp htakes
              obtain ⟨rfl, rfl⟩ := Prod.mk.inj (Option.some.inj (hread.symm.trans hread'))
              omega
            · rw [if_neg hbudget]
              have htakes : Takes lower limits selected candidate
                  (selectedFile lower candidate.parts content count) :=
                takes_iff.mpr ⟨by omega, content, count, hread, by omega, rfl⟩
              have hnext := ih (h.take htakes)
              rw [usedChars_concat, List.length_append, List.length_singleton,
                List.append_assoc selected, List.singleton_append] at hnext
              exact hnext

/-- The budgets are kept. -/
theorem within_limits {selected : List SelectedFile}
    (h : Greedy (Takes lower limits) candidates selected) :
    selected.length ≤ limits.maxFiles ∧ usedChars selected ≤ limits.maxContextChars := by
  refine Greedy.invariant (p := fun selected => selected.length ≤ limits.maxFiles ∧
    usedChars selected ≤ limits.maxContextChars) h ⟨Nat.zero_le _, Nat.zero_le _⟩ ?_
  intro selected candidate file _ htakes
  rw [List.length_append, List.length_singleton, usedChars_concat]
  exact ⟨htakes.room, htakes.fits⟩

/-- Files are selected in the order of the ranking. -/
theorem paths_sublist {selected : List SelectedFile}
    (h : Greedy (Takes lower limits) candidates selected) :
    (selected.map SelectedFile.path).Sublist (candidates.map fun candidate => asPosix candidate.parts) := by
  obtain ⟨picks, hpicks, hresults⟩ := h.exists_sublist
  have hpaths : selected.map SelectedFile.path = picks.map fun candidate => asPosix candidate.parts := by
    clear hpicks h
    induction hresults with
    | nil => rfl
    | cons htakes _ ih =>
        obtain ⟨_, htakes⟩ := htakes
        rw [List.map_cons, List.map_cons, htakes.path, ih]
  rw [hpaths]
  exact hpicks.map _

/-! ## The selection as a whole -/

/-- What is selected from the candidates: a greedy selection from the ranking, which holds
every candidate once and keeps the order of each category. -/
structure GreedySelection (lower : Name → Name) (limits : Limits) (candidates : List Candidate)
    (selected : List SelectedFile) : Prop where
  ranking : (ranked lower candidates).Perm candidates
  order : ∀ category, ((ranked lower candidates).filter fun candidate =>
    candidateCategory lower candidate.parts == category).Pairwise (Precedes lower)
  /-- a candidate is taken exactly when it can be, and the selection is the only one -/
  greedy : ∀ other, Greedy (Takes lower limits) (ranked lower candidates) other ↔ other = selected
  subsequence : (selected.map SelectedFile.path).Sublist
    ((ranked lower candidates).map fun candidate => asPosix candidate.parts)
  distinct : (selected.map SelectedFile.path).Nodup
  maxFiles : selected.length ≤ limits.maxFiles
  maxContextChars : usedChars selected ≤ limits.maxContextChars

/-- `select_project_files` is the greedy selection from its candidates. -/
theorem selection_greedy (lower : Name → Name) (project : Project) (output : Option Path)
    (limits : Limits) :
    GreedySelection lower limits (iterCandidatePaths lower project output)
      (selectProjectFiles lower project output limits) := by
  have hgreedy : Greedy (Takes lower limits) (ranked lower (iterCandidatePaths lower project output))
      (selectProjectFiles lower project output limits) := selectLoop_greedy .nil _
  obtain ⟨hfiles, hchars⟩ := within_limits hgreedy
  have hpaths := paths_sublist hgreedy
  have hnodup : ((ranked lower (iterCandidatePaths lower project output)).map fun candidate =>
      asPosix candidate.parts).Nodup :=
    ((ranked_perm lower _).map _).nodup_iff.mpr nodup_candidate_paths
  refine ⟨ranked_perm lower _, ?_, ?_, hpaths, hnodup.sublist hpaths, hfiles, hchars⟩
  · intro category
    rw [filter_ranked]
    exact pairwise_bucket category
  · intro other
    constructor
    · intro h
      exact h.unique takes_functional hgreedy
    · rintro rfl
      exact hgreedy

end Icflow.Generate
