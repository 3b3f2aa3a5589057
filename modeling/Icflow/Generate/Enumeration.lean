import Icflow.Generate.Selection
import Mathlib.Data.List.Forall2
import Mathlib.Data.List.Perm.Basic

set_option autoImplicit false

/-!
# The order in which directories list their entries

The walk sorts the names of every directory, and names occur once: what the system lists
first makes no difference to the candidates, nor to anything that follows.
-/

namespace Icflow.Generate

open Icflow.Foundation

/-- The same tree, with the entries of each directory in any order. -/
inductive Reordered : Tree → Tree → Prop where
  | refl (tree : Tree) : Reordered tree tree
  | directory {entries entries' : List (Name × Tree)} :
      (entries.map Prod.fst).Perm (entries'.map Prod.fst) →
      (∀ name tree tree', (name, tree) ∈ entries → (name, tree') ∈ entries' →
        Reordered tree tree') →
      Reordered (.directory entries) (.directory entries')

namespace Reordered

variable {tree tree' : Tree}

theorem isDir (h : Reordered tree tree') : tree'.isDir = tree.isDir := by
  cases h <;> rfl

theorem isSymlink (h : Reordered tree tree') : tree'.isSymlink = tree.isSymlink := by
  cases h <;> rfl

/-- What is not a directory has no order. -/
theorem eq_of_file (h : Reordered tree tree') (hfile : tree.isDir = false) : tree = tree' := by
  cases h with
  | refl => rfl
  | directory _ _ => cases hfile

end Reordered

/-! ## Sorting forgets the order -/

theorem sortedByName_eq {α : Type} {entries entries' : List (Name × α)}
    (hperm : entries.Perm entries') (hnodup : (entries.map Prod.fst).Nodup) :
    sortedByName entries = sortedByName entries' := by
  have htrans : ∀ a b c : Name × α, decide (a.1 ≤ b.1) = true → decide (b.1 ≤ c.1) = true →
      decide (a.1 ≤ c.1) = true := by
    intro a b c hab hbc
    exact decide_eq_true ((of_decide_eq_true hab).trans (of_decide_eq_true hbc))
  have htotal : ∀ a b : Name × α, (decide (a.1 ≤ b.1) || decide (b.1 ≤ a.1)) = true := by
    intro a b
    rw [Bool.or_eq_true, decide_eq_true_eq, decide_eq_true_eq]
    exact le_total a.1 b.1
  refine List.Perm.eq_of_pairwise ?_ (List.pairwise_mergeSort htrans htotal entries)
    (List.pairwise_mergeSort htrans htotal entries') ?_
  · intro a b ha hb hab hba
    have hname := le_antisymm (of_decide_eq_true hab) (of_decide_eq_true hba)
    have hb' := hperm.mem_iff.mpr (Walk.mem_sortedByName.mp hb)
    exact List.inj_on_of_nodup_map hnodup (Walk.mem_sortedByName.mp ha) hb' hname
  · exact (List.mergeSort_perm _ _).trans (hperm.trans (List.mergeSort_perm _ _).symm)

/-- What is made of the entries one by one comes in another order. -/
theorem filterMap_perm {α β : Type} {entries entries' : List (Name × α)} {g : Name × α → Option β}
    (hnames : (entries.map Prod.fst).Perm (entries'.map Prod.fst))
    (hsame : ∀ entry ∈ entries, ∀ entry' ∈ entries', entry.1 = entry'.1 → g entry = g entry') :
    (entries.filterMap g).Perm (entries'.filterMap g) := by
  have hentries : List.Forall₂ (fun name (entry : Name × α) => name = entry.1)
      (entries'.map Prod.fst) entries' := by
    rw [List.forall₂_map_left_iff, List.forall₂_same]
    exact fun _ _ => rfl
  obtain ⟨middle, hmiddle, hperm⟩ := List.perm_comp_forall₂ hnames hentries
  rw [List.forall₂_map_left_iff] at hmiddle
  have heq : entries.filterMap g = middle.filterMap g := by
    have hmem : ∀ entry' ∈ middle, entry' ∈ entries' := fun entry' h => hperm.mem_iff.mp h
    clear hentries hnames hperm
    induction hmiddle with
    | nil => rfl
    | cons hname _ ih =>
        obtain ⟨hfirst, hrest⟩ := List.forall_mem_cons.mp hmem
        rw [List.filterMap_cons, List.filterMap_cons,
          hsame _ List.mem_cons_self _ hfirst hname,
          ih (fun entry hentry => hsame entry (List.mem_cons_of_mem _ hentry)) hrest]
  rw [heq]
  exact hperm.filterMap g

/-! ## The walk -/

section Walk

variable {walk : Walk} {entries entries' : List (Name × Tree)}

theorem subdirectories_eq_filterMap (parts : Path) (entries : List (Name × Tree)) :
    walk.subdirectories parts entries = entries.filterMap fun entry =>
      if entry.2.isDir && walk.keepsDirectory parts entry.1 entry.2 then
        some (entry.1, walk.candidates (parts ++ [entry.1]) entry.2)
      else none := by
  induction entries with
  | nil => rfl
  | cons entry rest ih =>
      obtain ⟨name, node⟩ := entry
      rw [Walk.subdirectories, List.filterMap_cons, ih]
      by_cases hkeep : (node.isDir && walk.keepsDirectory parts name node) = true
      · rw [if_pos hkeep, if_pos hkeep]
      · rw [if_neg hkeep, if_neg hkeep]

theorem fileCandidates_reordered (parts : Path) (hnodup : (entries.map Prod.fst).Nodup)
    (hnames : (entries.map Prod.fst).Perm (entries'.map Prod.fst))
    (hentries : ∀ name tree tree', (name, tree) ∈ entries → (name, tree') ∈ entries' →
      Reordered tree tree') :
    walk.fileCandidates parts entries = walk.fileCandidates parts entries' := by
  have hfiles : (entries.filter fun entry => !entry.2.isDir).Perm
      (entries'.filter fun entry => !entry.2.isDir) := by
    rw [← List.filterMap_eq_filter]
    refine filterMap_perm hnames ?_
    rintro ⟨name, tree⟩ hentry ⟨_, tree'⟩ hentry' rfl
    have hsame := hentries name tree tree' hentry hentry'
    cases hdir : tree.isDir with
    | true =>
        have hdir' := hsame.isDir.trans hdir
        simp [Option.guard, hdir, hdir']
    | false => rw [hsame.eq_of_file hdir]
  have hsub := hnodup.sublist
    ((List.filter_sublist (p := fun entry : Name × Tree => !entry.2.isDir)).map Prod.fst)
  rw [Walk.fileCandidates, sortedByName_eq hfiles hsub]
  rfl

/-- The walk yields the same, in the same order. -/
theorem candidates_reordered {tree tree' : Tree} (h : Reordered tree tree')
    (htree : tree.WellFormed) (htree' : tree'.WellFormed) (parts : Path) :
    walk.candidates parts tree = walk.candidates parts tree' := by
  induction h generalizing parts with
  | refl => rfl
  | @directory entries entries' hnames hentries ih =>
      have hwell : Tree.WellFormedEntries entries := htree
      have hwell' : Tree.WellFormedEntries entries' := htree'
      have hnodup := Walk.nodup_names hwell
      have hdirs : (walk.subdirectories parts entries).Perm
          (walk.subdirectories parts entries') := by
        rw [subdirectories_eq_filterMap, subdirectories_eq_filterMap]
        refine filterMap_perm hnames ?_
        rintro ⟨name, node⟩ hentry ⟨_, node'⟩ hentry' rfl
        have hsame := hentries name node node' hentry hentry'
        have hbelow := ih name node node' hentry hentry' (hwell.valid _ hentry).2
          (hwell'.valid _ hentry').2 (parts ++ [name])
        have hkeeps : walk.keepsDirectory parts name node' = walk.keepsDirectory parts name node := by
          rw [Walk.keepsDirectory, Walk.keepsDirectory, hsame.isSymlink]
        simp only [hsame.isDir, hkeeps, hbelow]
      have hsub : ((walk.subdirectories parts entries).map Prod.fst).Nodup :=
        hnodup.sublist (Walk.subdirectories_sublist entries)
      rw [Walk.candidates, Walk.candidates, fileCandidates_reordered parts hnodup hnames hentries,
        sortedByName_eq hdirs hsub]

end Walk

/-- Two listings of one project give the same selection. -/
theorem selectProjectFiles_reordered (lower : Name → Name) {project project' : Project}
    (hroot : project.root = project'.root)
    (h : Reordered (.directory project.entries) (.directory project'.entries))
    (output : Option Path) (limits : Limits) :
    selectProjectFiles lower project output limits =
      selectProjectFiles lower project' output limits := by
  have hcandidates : iterCandidatePaths lower project output =
      iterCandidatePaths lower project' output := by
    rw [iterCandidatePaths, iterCandidatePaths, hroot]
    exact candidates_reordered h project.wellFormed project'.wellFormed []
  rw [selectProjectFiles, selectProjectFiles, hcandidates]

/-- Two files. -/
def listing : Project where
  root := [text "p"]
  entries := [(text "a.c", .file ['x'] true), (text "b.c", .file ['y'] true)]
  wellFormed := by
    refine ⟨⟨?_, ?_, ?_, ?_⟩, ?_, trivial, ⟨?_, ?_, ?_, ?_⟩, ?_, trivial, trivial⟩ <;> decide

/-- The same two files, listed the other way round. -/
def otherListing : Project where
  root := [text "p"]
  entries := [(text "b.c", .file ['y'] true), (text "a.c", .file ['x'] true)]
  wellFormed := by
    refine ⟨⟨?_, ?_, ?_, ?_⟩, ?_, trivial, ⟨?_, ?_, ?_, ?_⟩, ?_, trivial, trivial⟩ <;> decide

theorem selectProjectFiles_reordered_listing :
    selectProjectFiles asciiLower listing none Limits.default =
      selectProjectFiles asciiLower otherListing none Limits.default := by
  have h : Reordered (.directory listing.entries) (.directory otherListing.entries) := by
    refine .directory (List.Perm.swap _ _ _) ?_
    intro name tree tree' hmem hmem'
    simp only [listing, otherListing, List.mem_cons, List.not_mem_nil, or_false, Prod.mk.injEq]
      at hmem hmem'
    have hne : text "a.c" ≠ text "b.c" := by decide
    rcases hmem with ⟨rfl, rfl⟩ | ⟨rfl, rfl⟩
    · rcases hmem' with ⟨heq, _⟩ | ⟨_, rfl⟩
      · exact absurd heq hne
      · exact .refl _
    · rcases hmem' with ⟨_, rfl⟩ | ⟨heq, _⟩
      · exact .refl _
      · exact absurd heq.symm hne
  have hroot : listing.root = otherListing.root := rfl
  exact selectProjectFiles_reordered asciiLower hroot h none Limits.default

end Icflow.Generate
