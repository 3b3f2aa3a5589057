import Icflow.Generate.Names
import Mathlib.Data.List.Lex
import Mathlib.Data.List.Nodup
import Mathlib.Data.List.Sort

set_option autoImplicit false

/-!
# The project tree and its walk

`iter_candidate_paths` walks the project with `os.walk(followlinks=False)`, prunes the
directories it does not want and yields the files that are worth reading, the files of a
directory before those below it, both in the order of their names.
-/

namespace Icflow.Generate

/-- What the walk sees of an entry of a directory.  The entries are in the order the
system lists them; a directory that cannot be listed lists none. -/
inductive Tree where
  | file (bytes : List Char) (readable : Bool)
  | directory (entries : List (Name × Tree))
  /-- and whether it leads to a directory -/
  | symlink (toDirectory : Bool)
  /-- a socket, a device or a pipe -/
  | special

namespace Tree

/-- `DirEntry.is_dir()`, which follows links -/
def isDir : Tree → Bool
  | .directory _ => true
  | .symlink toDirectory => toDirectory
  | _ => false

/-- `Path.is_symlink()` -/
def isSymlink : Tree → Bool
  | .symlink _ => true
  | _ => false

/-- The entry at a path below a directory; no link is followed. -/
def entry (tree : Tree) : Path → Option Tree
  | [] => some tree
  | name :: rest =>
      match tree with
      | .directory entries => (entries.lookup name).bind (entry · rest)
      | _ => none

mutual

/-- Names are valid and occur once in a directory. -/
def WellFormed : Tree → Prop
  | .directory entries => WellFormedEntries entries
  | _ => True

/-- `WellFormed` on the entries of a directory. -/
def WellFormedEntries : List (Name × Tree) → Prop
  | [] => True
  | (name, node) :: rest =>
      ValidName name ∧ name ∉ rest.map Prod.fst ∧ WellFormed node ∧ WellFormedEntries rest

end

/-- Induction over a tree, through the entries of its directories. -/
theorem induction {motive : Tree → Prop}
    (directory : ∀ entries, (∀ entry ∈ entries, motive entry.2) → motive (.directory entries))
    (leaf : ∀ tree, (∀ entries, tree ≠ .directory entries) → motive tree) :
    (tree : Tree) → motive tree
  | .file _ _ => leaf _ fun _ => nofun
  | .symlink _ => leaf _ fun _ => nofun
  | .special => leaf _ fun _ => nofun
  | .directory entries => directory entries (below entries)
where
  below : (entries : List (Name × Tree)) → ∀ entry ∈ entries, motive entry.2
    | [], _, h => absurd h List.not_mem_nil
    | (name, node) :: rest, entry, h => by
        rcases List.mem_cons.mp h with rfl | hrest
        · exact induction directory leaf node
        · exact below rest entry hrest

theorem WellFormedEntries.valid {entries : List (Name × Tree)} (h : WellFormedEntries entries) :
    ∀ entry ∈ entries, ValidName entry.1 ∧ entry.2.WellFormed := by
  induction entries with
  | nil => exact List.forall_mem_nil _
  | cons head rest ih =>
      obtain ⟨hvalid, _, hnode, hrest⟩ := h
      exact List.forall_mem_cons.mpr ⟨⟨hvalid, hnode⟩, ih hrest⟩

/-- Looking a name up finds the entry it belongs to. -/
theorem WellFormedEntries.lookup_iff {entries : List (Name × Tree)}
    (h : WellFormedEntries entries) {name : Name} {node : Tree} :
    entries.lookup name = some node ↔ (name, node) ∈ entries := by
  induction entries with
  | nil => simp
  | cons head rest ih =>
      obtain ⟨first, tree⟩ := head
      obtain ⟨_, hnew, _, hrest⟩ := h
      by_cases hname : name = first
      · subst hname
        have hother : (name, node) ∉ rest := fun hmem =>
          hnew (List.mem_map.mpr ⟨(name, node), hmem, rfl⟩)
        simp [hother, eq_comm]
      · rw [List.lookup_cons, beq_eq_false_iff_ne.mpr hname, ih hrest, List.mem_cons]
        simp [hname]

@[simp] theorem entry_nil (tree : Tree) : tree.entry [] = some tree := by
  cases tree <;> rfl

@[simp] theorem entry_directory_cons (entries : List (Name × Tree)) (name : Name) (rest : Path) :
    (directory entries).entry (name :: rest) = (entries.lookup name).bind (entry · rest) := rfl

/-- Nothing is below a node that is not a directory. -/
theorem entry_of_leaf {tree : Tree} (h : ∀ entries, tree ≠ .directory entries) {path : Path}
    (hpath : path ≠ []) : tree.entry path = none := by
  cases path with
  | nil => exact absurd rfl hpath
  | cons name rest =>
      cases tree with
      | directory entries => exact absurd rfl (h entries)
      | file bytes readable => rfl
      | symlink toDirectory => rfl
      | special => rfl

/-- A path is followed component by component. -/
theorem entry_append (tree : Tree) (path rest : Path) :
    tree.entry (path ++ rest) = (tree.entry path).bind (entry · rest) := by
  induction path generalizing tree with
  | nil => simp
  | cons name path ih =>
      cases tree with
      | directory entries =>
          rw [List.cons_append, entry_directory_cons, entry_directory_cons]
          cases entries.lookup name with
          | none => rfl
          | some node => exact ih node
      | file bytes readable => rfl
      | symlink toDirectory => rfl
      | special => rfl

/-- The names of a path that leads somewhere are valid. -/
theorem valid_of_entry {tree : Tree} (htree : tree.WellFormed) {path : Path} {node : Tree}
    (h : tree.entry path = some node) : ∀ name ∈ path, ValidName name := by
  induction path generalizing tree with
  | nil => exact List.forall_mem_nil _
  | cons name rest ih =>
      cases tree with
      | directory entries =>
          obtain ⟨child, hchild, hrest⟩ := Option.bind_eq_some_iff.mp h
          have hvalid := htree.valid _ (htree.lookup_iff.mp hchild)
          exact List.forall_mem_cons.mpr ⟨hvalid.1, ih hvalid.2 hrest⟩
      | file bytes readable => cases h
      | symlink toDirectory => cases h
      | special => cases h

end Tree

/-- The input project: its resolved root and what the root directory lists. -/
structure Project where
  root : Path
  entries : List (Name × Tree)
  wellFormed : Tree.WellFormedEntries entries

/-- What the walk depends on beside the tree. -/
structure Walk where
  lower : Name → Name
  root : Path
  /-- the resolved output directory -/
  output : Option Path

/-- A path the walk yields, below the root, with what is there. -/
structure Candidate where
  parts : Path
  node : Tree

/-- Entries in the order of their names. -/
def sortedByName {α : Type} (entries : List (Name × α)) : List (Name × α) :=
  entries.mergeSort fun a b => decide (a.1 ≤ b.1)

namespace Walk

/-- `directory.resolve().is_relative_to(resolved_output)`, for a directory reached through
directories only -/
def insideOutput (walk : Walk) (parts : Path) : Bool :=
  match walk.output with
  | none => false
  | some output => decide (output <+: walk.root ++ parts)

/-- The loop over `directory_names`. -/
def keepsDirectory (walk : Walk) (parts : Path) (name : Name) (node : Tree) : Bool :=
  if isExcludedDirectory name then false
  else if node.isSymlink then false
  else if walk.insideOutput (parts ++ [name]) then false
  else true

/-- The loop over `file_names`. -/
def keepsFile (walk : Walk) (name : Name) (node : Tree) : Bool :=
  if node.isSymlink || isSensitiveName walk.lower name then false
  else isEligibleName walk.lower name

/-- The files of one directory. -/
def fileCandidates (walk : Walk) (parts : Path) (entries : List (Name × Tree)) :
    List Candidate :=
  ((sortedByName (entries.filter fun entry => !entry.2.isDir)).filter fun entry =>
    walk.keepsFile entry.1 entry.2).map fun entry => ⟨parts ++ [entry.1], entry.2⟩

mutual

/-- `iter_candidate_paths`, from a directory on -/
def candidates (walk : Walk) (parts : Path) : Tree → List Candidate
  | .directory entries =>
      walk.fileCandidates parts entries ++
        (sortedByName (walk.subdirectories parts entries)).flatMap Prod.snd
  | _ => []

/-- The directories that are kept, each with what its walk yields. -/
def subdirectories (walk : Walk) (parts : Path) :
    List (Name × Tree) → List (Name × List Candidate)
  | [] => []
  | (name, node) :: rest =>
      if node.isDir && walk.keepsDirectory parts name node then
        (name, walk.candidates (parts ++ [name]) node) :: walk.subdirectories parts rest
      else walk.subdirectories parts rest

end

/-! ## What the walk yields -/

variable {walk : Walk} {parts dirs : Path} {name : Name} {node : Tree}

/-- The file `name` in the directory `dirs` below the one at `parts` is yielded: it is a
file worth reading, and no directory on the way is pruned. -/
structure Yields (walk : Walk) (parts : Path) (tree : Tree) (dirs : Path) (name : Name)
    (node : Tree) : Prop where
  entry : tree.entry (dirs ++ [name]) = some node
  file : node.isDir = false
  keepsFile : walk.keepsFile name node = true
  wanted : ∀ dir ∈ dirs, isExcludedDirectory dir = false
  apart : ∀ reached, reached <+: dirs → reached ≠ [] → walk.insideOutput (parts ++ reached) = false

theorem keepsDirectory_iff :
    walk.keepsDirectory parts name node = true ↔
      isExcludedDirectory name = false ∧ node.isSymlink = false ∧
        walk.insideOutput (parts ++ [name]) = false := by
  unfold keepsDirectory
  cases isExcludedDirectory name <;> cases node.isSymlink <;>
    cases walk.insideOutput (parts ++ [name]) <;> simp

theorem keepsFile_iff :
    walk.keepsFile name node = true ↔
      node.isSymlink = false ∧ isSensitiveName walk.lower name = false ∧
        isEligibleName walk.lower name = true := by
  unfold keepsFile
  cases node.isSymlink <;> cases isSensitiveName walk.lower name <;> simp

theorem mem_subdirectories {entries : List (Name × Tree)} {name : Name} {below : List Candidate} :
    (name, below) ∈ walk.subdirectories parts entries ↔
      ∃ node, (name, node) ∈ entries ∧ node.isDir = true ∧
        walk.keepsDirectory parts name node = true ∧
        below = walk.candidates (parts ++ [name]) node := by
  induction entries with
  | nil => simp [subdirectories]
  | cons head rest ih =>
      obtain ⟨first, tree⟩ := head
      unfold subdirectories
      split
      · rename_i hkeep
        rw [Bool.and_eq_true] at hkeep
        rw [List.mem_cons, ih]
        constructor
        · rintro (heq | ⟨node, hmem, h⟩)
          · obtain ⟨rfl, rfl⟩ := Prod.mk.inj heq
            exact ⟨tree, List.mem_cons_self, hkeep.1, hkeep.2, rfl⟩
          · exact ⟨node, List.mem_cons_of_mem _ hmem, h⟩
        · rintro ⟨node, hmem, hdir, hkeeps, rfl⟩
          rcases List.mem_cons.mp hmem with heq | hmem
          · obtain ⟨rfl, rfl⟩ := Prod.mk.inj heq
            exact Or.inl rfl
          · exact Or.inr ⟨node, hmem, hdir, hkeeps, rfl⟩
      · rename_i hkeep
        rw [Bool.and_eq_true] at hkeep
        rw [ih]
        constructor
        · rintro ⟨node, hmem, h⟩
          exact ⟨node, List.mem_cons_of_mem _ hmem, h⟩
        · rintro ⟨node, hmem, hdir, hkeeps, rfl⟩
          rcases List.mem_cons.mp hmem with heq | hmem
          · obtain ⟨rfl, rfl⟩ := Prod.mk.inj heq
            exact absurd ⟨hdir, hkeeps⟩ hkeep
          · exact ⟨node, hmem, hdir, hkeeps, rfl⟩

theorem mem_sortedByName {α : Type} {entries : List (Name × α)} {entry : Name × α} :
    entry ∈ sortedByName entries ↔ entry ∈ entries :=
  (List.mergeSort_perm entries _).mem_iff

theorem mem_fileCandidates {entries : List (Name × Tree)} {candidate : Candidate} :
    candidate ∈ walk.fileCandidates parts entries ↔
      ∃ name, (name, candidate.node) ∈ entries ∧ candidate.node.isDir = false ∧
        walk.keepsFile name candidate.node = true ∧ candidate.parts = parts ++ [name] := by
  simp only [fileCandidates, List.mem_map, List.mem_filter, mem_sortedByName,
    Bool.not_eq_true', Prod.exists]
  constructor
  · rintro ⟨name, node, ⟨⟨hmem, hfile⟩, hkeeps⟩, rfl⟩
    exact ⟨name, hmem, hfile, hkeeps, rfl⟩
  · rintro ⟨name, hmem, hfile, hkeeps, hparts⟩
    exact ⟨name, candidate.node, ⟨⟨hmem, hfile⟩, hkeeps⟩, by rw [← hparts]⟩

/-- A file of the directory itself is yielded when it is kept. -/
theorem yields_nil {tree : Tree} :
    Yields walk parts tree [] name node ↔
      tree.entry [name] = some node ∧ node.isDir = false ∧ walk.keepsFile name node = true := by
  constructor
  · intro h
    exact ⟨h.entry, h.file, h.keepsFile⟩
  · rintro ⟨hentry, hfile, hkeeps⟩
    refine ⟨hentry, hfile, hkeeps, List.forall_mem_nil _, ?_⟩
    intro reached hprefix hne
    exact absurd (List.prefix_nil.mp hprefix) hne

/-- A file further down is yielded when its first directory is kept and the walk of that
directory yields it. -/
theorem yields_cons {entries : List (Name × Tree)} {dir : Name} :
    Yields walk parts (.directory entries) (dir :: dirs) name node ↔
      ∃ child, entries.lookup dir = some child ∧ child.isDir = true ∧
        walk.keepsDirectory parts dir child = true ∧
        Yields walk (parts ++ [dir]) child dirs name node := by
  constructor
  · intro h
    obtain ⟨child, hchild, hrest⟩ := Option.bind_eq_some_iff.mp h.entry
    have hdirectory : ∃ below, child = .directory below := by
      by_contra hleaf
      have hnone : child.entry (dirs ++ [name]) = none :=
        Tree.entry_of_leaf (fun below heq => hleaf ⟨below, heq⟩) (List.concat_ne_nil name dirs)
      exact absurd (hnone.symm.trans hrest) (Option.some_ne_none node).symm
    obtain ⟨below, rfl⟩ := hdirectory
    obtain ⟨hdir, hwanted⟩ := List.forall_mem_cons.mp h.wanted
    have hfirst := h.apart [dir] (List.prefix_append [dir] dirs) (List.cons_ne_nil _ _)
    refine ⟨_, hchild, rfl, keepsDirectory_iff.mpr ⟨hdir, rfl, hfirst⟩,
      hrest, h.file, h.keepsFile, hwanted, ?_⟩
    intro reached hprefix _
    rw [List.append_assoc]
    exact h.apart (dir :: reached) (List.cons_prefix_cons.mpr ⟨rfl, hprefix⟩)
      (List.cons_ne_nil _ _)
  · rintro ⟨child, hchild, _, hkeeps, h⟩
    obtain ⟨hdir, _, hfirst⟩ := keepsDirectory_iff.mp hkeeps
    refine ⟨?_, h.file, h.keepsFile, List.forall_mem_cons.mpr ⟨hdir, h.wanted⟩, ?_⟩
    · rw [List.cons_append, Tree.entry_directory_cons, hchild]
      exact h.entry
    · intro reached hprefix hne
      cases reached with
      | nil => exact absurd rfl hne
      | cons first rest =>
          obtain ⟨rfl, hrest⟩ := List.cons_prefix_cons.mp hprefix
          cases rest with
          | nil => exact hfirst
          | cons second rest =>
              have happart := h.apart (second :: rest) hrest (List.cons_ne_nil _ _)
              rwa [List.append_assoc] at happart

/-- The walk of a tree yields what `Yields` says. -/
theorem mem_candidates {tree : Tree} (htree : tree.WellFormed) {candidate : Candidate} :
    candidate ∈ walk.candidates parts tree ↔
      ∃ dirs name, candidate.parts = parts ++ (dirs ++ [name]) ∧
        Yields walk parts tree dirs name candidate.node := by
  induction tree using Tree.induction generalizing parts with
  | leaf tree hleaf =>
      have hnone : walk.candidates parts tree = [] := by
        cases tree with
        | directory entries => exact absurd rfl (hleaf entries)
        | file bytes readable => rfl
        | symlink toDirectory => rfl
        | special => rfl
      rw [hnone]
      constructor
      · intro h
        exact absurd h List.not_mem_nil
      · rintro ⟨dirs, name, _, h⟩
        have hentry := h.entry
        rw [Tree.entry_of_leaf hleaf (List.concat_ne_nil name dirs)] at hentry
        cases hentry
  | directory entries ih =>
      have hentries : Tree.WellFormedEntries entries := htree
      simp only [candidates, List.mem_append, mem_fileCandidates, List.mem_flatMap,
        mem_sortedByName, Prod.exists, mem_subdirectories]
      constructor
      · rintro (⟨name, hmem, hfile, hkeeps, hparts⟩ |
          ⟨dir, _, ⟨child, hmem, hdir, hkeeps, rfl⟩, hbelow⟩)
        · refine ⟨[], name, hparts, yields_nil.mpr ⟨?_, hfile, hkeeps⟩⟩
          simp [hentries.lookup_iff.mpr hmem]
        · obtain ⟨dirs, name, hparts, h⟩ :=
            (ih _ hmem (hentries.valid _ hmem).2).mp hbelow
          refine ⟨dir :: dirs, name, ?_,
            yields_cons.mpr ⟨child, hentries.lookup_iff.mpr hmem, hdir, hkeeps, h⟩⟩
          rw [hparts, List.append_assoc]
          rfl
      · rintro ⟨dirs, name, hparts, h⟩
        cases dirs with
        | nil =>
            obtain ⟨hentry, hfile, hkeeps⟩ := yields_nil.mp h
            obtain ⟨child, hchild, hnode⟩ := Option.bind_eq_some_iff.mp hentry
            obtain rfl := Option.some.inj ((Tree.entry_nil child).symm.trans hnode)
            exact Or.inl ⟨name, hentries.lookup_iff.mp hchild, hfile, hkeeps, hparts⟩
        | cons dir dirs =>
            obtain ⟨child, hchild, hdir, hkeeps, hbelow⟩ := yields_cons.mp h
            have hmem := hentries.lookup_iff.mp hchild
            refine Or.inr ⟨dir, _, ⟨child, hmem, hdir, hkeeps, rfl⟩, ?_⟩
            refine (ih _ hmem (hentries.valid _ hmem).2).mpr ⟨dirs, name, ?_, hbelow⟩
            rw [hparts, List.append_assoc]
            rfl

/-! ## Nothing is yielded twice -/

theorem nodup_names {entries : List (Name × Tree)} (h : Tree.WellFormedEntries entries) :
    (entries.map Prod.fst).Nodup := by
  induction entries with
  | nil => exact List.nodup_nil
  | cons head rest ih =>
      obtain ⟨_, hnew, _, hrest⟩ := h
      rw [List.map_cons, List.nodup_cons]
      exact ⟨hnew, ih hrest⟩

theorem nodup_sortedByName {α : Type} {entries : List (Name × α)} (h : (entries.map Prod.fst).Nodup) :
    ((sortedByName entries).map Prod.fst).Nodup :=
  ((List.mergeSort_perm entries _).map Prod.fst).nodup_iff.mpr h

theorem subdirectories_sublist (entries : List (Name × Tree)) :
    ((walk.subdirectories parts entries).map Prod.fst).Sublist (entries.map Prod.fst) := by
  induction entries with
  | nil => exact List.Sublist.refl _
  | cons head rest ih =>
      obtain ⟨name, node⟩ := head
      unfold subdirectories
      by_cases hkeep : (node.isDir && walk.keepsDirectory parts name node) = true
      · rw [if_pos hkeep]
        exact ih.cons_cons name
      · rw [if_neg hkeep]
        exact ih.cons name

theorem nodup_fileCandidates {entries : List (Name × Tree)} (h : (entries.map Prod.fst).Nodup) :
    ((walk.fileCandidates parts entries).map Candidate.parts).Nodup := by
  have hfiles := nodup_sortedByName
    (h.sublist ((List.filter_sublist (p := fun entry => !entry.2.isDir)).map Prod.fst))
  have hkept := hfiles.sublist
    ((List.filter_sublist (p := fun entry => walk.keepsFile entry.1 entry.2)).map Prod.fst)
  have hparts : Function.Injective fun name : Name => parts ++ [name] := fun a b hab =>
    List.singleton_inj.mp (List.append_cancel_left hab)
  have hmapped := hkept.map hparts
  rw [List.map_map] at hmapped
  rw [fileCandidates, List.map_map]
  exact hmapped

/-- Every path is yielded once. -/
theorem nodup_candidates {tree : Tree} (htree : tree.WellFormed) (parts : Path) :
    ((walk.candidates parts tree).map Candidate.parts).Nodup := by
  induction tree using Tree.induction generalizing parts with
  | leaf tree hleaf =>
      cases tree with
      | directory entries => exact absurd rfl (hleaf entries)
      | file bytes readable => exact List.nodup_nil
      | symlink toDirectory => exact List.nodup_nil
      | special => exact List.nodup_nil
  | directory entries ih =>
      have hentries : Tree.WellFormedEntries entries := htree
      have hnames := nodup_names hentries
      -- what the walk of a subdirectory yields is below it
      have hbelow : ∀ sub ∈ sortedByName (walk.subdirectories parts entries),
          ∀ candidate ∈ sub.2, ∃ name rest, candidate.parts = parts ++ sub.1 :: name :: rest := by
        intro sub hsub candidate hcandidate
        obtain ⟨node, hmem, _, _, heq⟩ := mem_subdirectories.mp (mem_sortedByName.mp hsub)
        rw [heq] at hcandidate
        obtain ⟨dirs, name, hparts, _⟩ := (mem_candidates (hentries.valid _ hmem).2).mp hcandidate
        rw [List.append_assoc, List.singleton_append] at hparts
        cases dirs with
        | nil => exact ⟨name, [], hparts⟩
        | cons dir dirs => exact ⟨dir, dirs ++ [name], hparts⟩
      rw [candidates, List.map_append, List.nodup_append']
      refine ⟨nodup_fileCandidates hnames, ?_, ?_⟩
      · rw [List.map_flatMap, List.nodup_flatMap]
        constructor
        · intro sub hsub
          obtain ⟨node, hmem, _, _, heq⟩ := mem_subdirectories.mp (mem_sortedByName.mp hsub)
          rw [heq]
          exact ih _ hmem (hentries.valid _ hmem).2 _
        · have hdirs : ((walk.subdirectories parts entries).map Prod.fst).Nodup :=
            hnames.sublist (subdirectories_sublist entries)
          refine (List.pairwise_map.mp (nodup_sortedByName hdirs)).imp_of_mem ?_
          intro sub other hsub hother hne path hpath hpath'
          obtain ⟨candidate, hcandidate, rfl⟩ := List.mem_map.mp hpath
          obtain ⟨candidate', hcandidate', heq⟩ := List.mem_map.mp hpath'
          obtain ⟨name, rest, hparts⟩ := hbelow sub hsub candidate hcandidate
          obtain ⟨name', rest', hparts'⟩ := hbelow other hother candidate' hcandidate'
          rw [hparts, hparts', List.append_cancel_left_eq, List.cons.injEq] at heq
          exact hne heq.1.symm
      · intro path hfile hsub
        obtain ⟨candidate, hcandidate, rfl⟩ := List.mem_map.mp hfile
        obtain ⟨candidate', hcandidate', heq⟩ := List.mem_map.mp hsub
        obtain ⟨name, _, _, _, hparts⟩ := mem_fileCandidates.mp hcandidate
        obtain ⟨sub, hmem, hinside⟩ := List.mem_flatMap.mp hcandidate'
        obtain ⟨name', rest, hparts'⟩ := hbelow sub hmem candidate' hinside
        rw [hparts, hparts', List.append_cancel_left_eq, List.cons.injEq] at heq
        cases heq.2

end Walk

/-- `iter_candidate_paths(project_root, output_dir)` -/
def iterCandidatePaths (lower : Name → Name) (project : Project) (output : Option Path) :
    List Candidate :=
  Walk.candidates ⟨lower, project.root, output⟩ [] (.directory project.entries)

section Candidates

variable {lower : Name → Name} {project : Project} {output : Option Path}

/-- The text of a candidate's path says which one it is. -/
theorem partsOf_candidate {candidate : Candidate}
    (h : candidate ∈ iterCandidatePaths lower project output) :
    partsOf (asPosix candidate.parts) = candidate.parts := by
  have htree : (Tree.directory project.entries).WellFormed := project.wellFormed
  obtain ⟨dirs, name, hparts, hyields⟩ := (Walk.mem_candidates htree).mp h
  rw [List.nil_append] at hparts
  rw [hparts]
  exact partsOf_asPosix (List.concat_ne_nil name dirs) (Tree.valid_of_entry htree hyields.entry)

theorem nodup_candidate_paths :
    ((iterCandidatePaths lower project output).map fun candidate => asPosix candidate.parts).Nodup := by
  have htree : (Tree.directory project.entries).WellFormed := project.wellFormed
  have hparts : ((iterCandidatePaths lower project output).map Candidate.parts).Nodup :=
    Walk.nodup_candidates htree []
  have hnodup : (((iterCandidatePaths lower project output).map fun candidate =>
      asPosix candidate.parts).map partsOf).Nodup := by
    rw [List.map_map]
    have heq : (iterCandidatePaths lower project output).map
        (partsOf ∘ fun candidate => asPosix candidate.parts) =
          (iterCandidatePaths lower project output).map Candidate.parts :=
      List.map_congr_left fun candidate hcandidate => partsOf_candidate hcandidate
    rw [heq]
    exact hparts
  exact hnodup.of_map partsOf

end Candidates

end Icflow.Generate
