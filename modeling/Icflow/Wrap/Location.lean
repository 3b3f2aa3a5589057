import Icflow.Foundation.Occurrences
import Icflow.Wrap.Coverage
import Icflow.Wrap.Reversible

set_option autoImplicit false

/-!
# Where a tree lies

A tree is given by paths relative to its root and can be placed below any directory.  The
filters of the wrap loop look at whole paths, so the name of that directory is matched as
well: `hides` says for which names nothing in the tree is wrapped.
-/

namespace Icflow.Wrap

open Icflow.Foundation

/-- An object of a tree.  Where a link leads depends on the root directory. -/
inductive Entry where
  | file (content : List Char) (mode : Nat)
  | directory
  | symlink (leads : Path → Path)
  | special

/-- The object when the tree lies below `root`. -/
def Entry.node (root : Path) : Entry → Node
  | .file content mode => .file content mode
  | .directory => .directory
  | .symlink leads => .symlink (leads root)
  | .special => .special

/-- The objects of a tree by relative path. -/
abbrev Tree := List Char → Option Entry

/-- A directory for a tree, empty for the root directory, and what lies around the tree. -/
structure Place where
  root : Path
  around : FileSystem

/-- The path of an object of the tree. -/
def below (root : Path) (name : List Char) : Path := root ++ '/' :: name

/-- The file system with the tree in its place. -/
def placed (T : Tree) (place : Place) : FileSystem := fun path =>
  if inTree place.root path then (T (path.drop (place.root.length + 1))).map (Entry.node place.root)
  else place.around path

/-- Every path below the directory matches `*/pkg/*` or `*.so.*`. -/
def hides (root : Path) : Bool :=
  containsText "/pkg/".toList (root ++ ['/']) || containsText ".so.".toList root

/-- A file that the filters let pass below a directory that hides nothing. -/
structure Candidate (host : Host) (T : Tree) (name : List Char) : Prop where
  outside : containsText "/pkg/".toList ('/' :: name) = false
  named : skippedName name = false
  executable : ∃ content mode, T name = some (.file content mode) ∧
    host.executable mode = true ∧ describesExecutable (host.fileDescription content mode) = true

/-- `[[ -f $original ]]` where the tree lies. -/
def backedUp (T : Tree) (place : Place) (name : List Char) : Bool :=
  isRegular (placed T place) (orig (below place.root name))

/-- Either both places hide the tree, or one of them does and at the other one every candidate
has a backup, or neither does and they agree on which candidates have one. -/
structure PlacedAlike (host : Host) (T : Tree) (here there : Place) : Prop where
  hiddenThere : hides here.root = false → hides there.root = true →
    ∀ name, Candidate host T name → backedUp T here name = true
  hiddenHere : hides here.root = true → hides there.root = false →
    ∀ name, Candidate host T name → backedUp T there name = true
  links : hides here.root = false → hides there.root = false →
    ∀ name, Candidate host T name → (backedUp T here name = backedUp T there name)

/-- Nothing keeps the script from wrapping what it selects: no name is in the way, `mv` refuses
no file and the log can be made. -/
structure PlacedFree (host : Host) (setup : Setup) (T : Tree) (place : Place) : Prop where
  names : NamesFree host setup place.root (placed T place)
  unrefused : ∀ x, Wrappable host place.root (placed T place) x → ¬ Refused (placed T place) x
  log : LogClear host setup place.root (placed T place)
  prepared : ∃ ready, runAll host.umask (prepareLog setup) (placed T place) = some ready

section Place

variable {host : Host} {T : Tree} {place : Place} {root : Path} {name : List Char}

/-! ## Paths -/

theorem inTree_below (root : Path) (name : List Char) : inTree root (below root name) = true := by
  rw [inTree, List.isPrefixOf_iff_prefix, below]
  exact (List.prefix_append_right_inj root).mpr (List.prefix_append ['/'] name)

theorem exists_eq_below {path : Path} (h : inTree root path = true) :
    ∃ name, path = below root name := by
  rw [inTree, List.isPrefixOf_iff_prefix] at h
  obtain ⟨name, hname⟩ := h
  refine ⟨name, ?_⟩
  rw [← hname, List.append_assoc, List.singleton_append, below]

theorem placed_below (T : Tree) (place : Place) (name : List Char) :
    placed T place (below place.root name) = (T name).map (Entry.node place.root) := by
  have hdrop : (below place.root name).drop (place.root.length + 1) = name := by
    rw [below, ← List.singleton_append, ← List.append_assoc]
    apply List.drop_left'
    rw [List.length_append, List.length_singleton]
  rw [placed, if_pos (inTree_below place.root name), hdrop]

theorem orig_below (root : Path) (name : List Char) :
    orig (below root name) = below root (orig name) := by
  rw [orig, orig, below, below, List.append_assoc, List.cons_append]

theorem isSuffixOf_below {suffix : List Char} (h : '/' ∉ suffix) (root : Path)
    (name : List Char) : suffix.isSuffixOf (below root name) = suffix.isSuffixOf name := by
  rw [Bool.eq_iff_iff, List.isSuffixOf_iff_suffix, List.isSuffixOf_iff_suffix, below,
    suffix_append_cons_iff h]

/-! ## The filters -/

/-- A component of the path is one of the directory or one of the tree. -/
theorem containsText_pkg_below (root : Path) (name : List Char) :
    containsText "/pkg/".toList (below root name) =
      (containsText "/pkg/".toList (root ++ ['/']) ||
        containsText "/pkg/".toList ('/' :: name)) := by
  have hpattern : "/pkg/".toList = '/' :: ("pkg".toList ++ ['/']) := by decide
  have hinner : '/' ∉ "pkg".toList := by decide
  rw [Bool.eq_iff_iff, Bool.or_eq_true, containsText_iff, containsText_iff, containsText_iff,
    below, hpattern, enclosed_infix_append_cons_iff hinner]

theorem containsText_below {needle : List Char} (h : '/' ∉ needle) (root : Path)
    (name : List Char) :
    containsText needle (below root name) =
      (containsText needle root || containsText needle name) := by
  rw [Bool.eq_iff_iff, Bool.or_eq_true, containsText_iff, containsText_iff, containsText_iff,
    below, infix_append_cons_iff h]

theorem skippedName_below (root : Path) (name : List Char) :
    skippedName (below root name) =
      (containsText ".so.".toList root || skippedName name) := by
  have horig : '/' ∉ ".orig".toList := by decide
  have hso : '/' ∉ ".so".toList := by decide
  have hversion : '/' ∉ ".so.".toList := by decide
  have hfilename : filename (below root name) = filename name := filename_append_cons root name
  rw [skippedName, isSuffixOf_below horig, isSuffixOf_below hso, containsText_below hversion,
    hfilename, skippedName]
  ac_rfl

theorem wrappable_placed_iff :
    Wrappable host place.root (placed T place) (below place.root name) ↔
      hides place.root = false ∧ Candidate host T name := by
  have hfile : ∀ content mode, placed T place (below place.root name) = some (.file content mode) ↔
      T name = some (.file content mode) := by
    intro content mode
    rw [placed_below, Option.map_eq_some_iff]
    constructor
    · rintro ⟨entry, hentry, hnode⟩
      cases entry with
      | file _ _ =>
          cases hnode
          exact hentry
      | _ => cases hnode
    · intro hentry
      exact ⟨_, hentry, rfl⟩
  unfold Wrappable hides
  rw [containsText_pkg_below, skippedName_below, Bool.or_eq_false_iff, Bool.or_eq_false_iff,
    Bool.or_eq_false_iff]
  simp only [hfile]
  constructor
  · rintro ⟨_, ⟨hpkg, houtside⟩, ⟨hversion, hnamed⟩, hexecutable⟩
    exact ⟨⟨hpkg, hversion⟩, houtside, hnamed, hexecutable⟩
  · rintro ⟨⟨hpkg, hversion⟩, houtside, hnamed, hexecutable⟩
    exact ⟨inTree_below place.root name, ⟨hpkg, houtside⟩, ⟨hversion, hnamed⟩, hexecutable⟩

/-- What is selected at a place. -/
theorem selected_placed_iff {setup : Setup} :
    Selected host setup place.root (placed T place) (below place.root name) ↔
      hides place.root = false ∧ Candidate host T name ∧ backedUp T place name = false := by
  rw [selected_iff, wrappable_placed_iff, and_assoc]
  rfl

/-- Without a link at the backup path the place does not matter for the backup. -/
theorem backedUp_of_not_link (h : ∀ leads, T (orig name) ≠ some (.symlink leads)) :
    backedUp T place name = true ↔ ∃ content mode, T (orig name) = some (.file content mode) := by
  have hplaced := placed_below T place (orig name)
  have hself : resolve (placed T place) (below place.root (orig name)) =
      some (below place.root (orig name)) := by
    apply resolve_of_not_symlink
    intro target htarget
    rw [hplaced, Option.map_eq_some_iff] at htarget
    obtain ⟨entry, hentry, hnode⟩ := htarget
    cases entry with
    | symlink leads => exact h leads hentry
    | _ => cases hnode
  rw [backedUp, orig_below, isRegular, lookup, hself, Option.bind_some, hplaced]
  cases hentry : T (orig name) with
  | none => simp
  | some entry =>
      cases entry with
      | symlink leads => exact absurd hentry (h leads)
      | _ => simp [Entry.node]

end Place

section Places

variable {host : Host} {T : Tree} {here there : Place}

/-- A tree without links is wrapped alike at places that hide it both or not at all. -/
theorem placedAlike_of_no_links (h : ∀ name leads, T name ≠ some (.symlink leads))
    (hhides : hides here.root = hides there.root) : PlacedAlike host T here there where
  hiddenThere := by
    intro hhere hthere
    rw [hhides, hthere] at hhere
    cases hhere
  hiddenHere := by
    intro hhere hthere
    rw [hhides, hthere] at hhere
    cases hhere
  links := by
    intro _ _ name _
    rw [Bool.eq_iff_iff, backedUp_of_not_link (h (orig name)), backedUp_of_not_link (h (orig name))]

/-- The same paths are selected at two places exactly when the tree is placed alike. -/
theorem selected_congr_iff (setup setup' : Setup) :
    (∀ name, Selected host setup here.root (placed T here) (below here.root name) ↔
        Selected host setup' there.root (placed T there) (below there.root name)) ↔
      PlacedAlike host T here there := by
  simp only [selected_placed_iff]
  constructor
  · intro hsame
    refine ⟨?_, ?_, ?_⟩
    · intro hhere hthere name hname
      rw [← Bool.not_eq_false]
      intro hbackup
      have hselected := ((hsame name).mp ⟨hhere, hname, hbackup⟩).1
      rw [hthere] at hselected
      cases hselected
    · intro hhere hthere name hname
      rw [← Bool.not_eq_false]
      intro hbackup
      have hselected := ((hsame name).mpr ⟨hthere, hname, hbackup⟩).1
      rw [hhere] at hselected
      cases hselected
    · intro hhere hthere name hname
      rw [Bool.eq_iff_iff, ← not_iff_not, Bool.not_eq_true, Bool.not_eq_true]
      constructor
      · intro hbackup
        exact ((hsame name).mp ⟨hhere, hname, hbackup⟩).2.2
      · intro hbackup
        exact ((hsame name).mpr ⟨hthere, hname, hbackup⟩).2.2
  · intro halike name
    constructor
    · rintro ⟨hhere, hname, hbackup⟩
      cases hthere : hides there.root with
      | true =>
          rw [halike.hiddenThere hhere hthere name hname] at hbackup
          cases hbackup
      | false =>
          rw [halike.links hhere hthere name hname] at hbackup
          exact ⟨rfl, hname, hbackup⟩
    · rintro ⟨hthere, hname, hbackup⟩
      cases hhere : hides here.root with
      | true =>
          rw [halike.hiddenHere hhere hthere name hname] at hbackup
          cases hbackup
      | false =>
          rw [← halike.links hhere hthere name hname] at hbackup
          exact ⟨rfl, hname, hbackup⟩

end Places

section Sample

/-- A tree with one executable. -/
def oneFile : Tree := fun name =>
  if name = ['x'] then some (.file ['\x7f', 'E', 'L', 'F'] 0o755) else none

/-- A directory with nothing around it. -/
def alone (root : Path) : Place := ⟨root, fun _ => none⟩

def plainPlace : Place := alone "/w".toList

/-- A working directory with the name that `makepkg` gives to its package directory. -/
def pkgPlace : Place := alone "/w/pkg".toList

theorem placed_oneFile {root path : Path} {node : Node}
    (h : placed oneFile (alone root) path = some node) :
    path = below root ['x'] ∧ node = sampleElf := by
  unfold placed at h
  split at h
  · rename_i hin
    obtain ⟨name, rfl⟩ := exists_eq_below hin
    have hplaced := placed_below oneFile (alone root) name
    rw [placed, if_pos hin] at hplaced
    rw [hplaced, oneFile] at h
    split at h
    · rename_i hname
      exact ⟨congrArg (below root) hname, (Option.some.inj h).symm⟩
    · cases h
  · cases h

theorem eq_of_matching_oneFile {root path : Path} (houtside : inTree root "/tmp/log".toList = false)
    (h : wrapMatching sampleHost root (withLog (placed oneFile (alone root))) path) :
    path = below root ['x'] := by
  obtain ⟨hin, _, content, mode, hfile, _⟩ := h
  rcases withLog_file hfile with rfl | htree
  · rw [houtside] at hin
    cases hin
  · exact (placed_oneFile htree).1

theorem collisionFree_oneFile (root : Path) :
    CollisionFree sampleHost root (placed oneFile (alone root)) := by
  have hfree : ∀ path, path ≠ below root ['x'] → placed oneFile (alone root) path = none := by
    intro path hpath
    cases hnode : placed oneFile (alone root) path with
    | none => rfl
    | some node => exact absurd (placed_oneFile hnode).1 hpath
  have hself : ∀ x, Wrappable sampleHost root (placed oneFile (alone root)) x →
      x = below root ['x'] := by
    rintro x ⟨_, _, _, content, mode, hfile, _⟩
    exact (placed_oneFile hfile).1
  refine ⟨?_, ?_, ?_⟩
  · intro x hx
    left
    apply hfree
    rw [hself x hx]
    exact orig_ne_self _
  · intro x pid hx _
    apply hfree
    rw [hself x hx]
    exact temporaryWrapper_ne_self pid _
  · intro y target content mode hlink
    cases (placed_oneFile hlink).2

theorem placedFree_oneFile {root : Path}
    (hlog : LogApart root sampleSetup (placed oneFile (alone root)))
    (hprepared : runAll sampleHost.umask (prepareLog sampleSetup) (placed oneFile (alone root)) =
      some (withLog (placed oneFile (alone root)))) :
    PlacedFree sampleHost sampleSetup oneFile (alone root) := by
  have hnames := (collisionFree_oneFile root).names sampleSetup
  refine ⟨hnames, ?_, hlog.logClear hnames, _, hprepared⟩
  rintro x _ ⟨directory, _, hdirectory, _⟩
  cases (placed_oneFile hdirectory).2

/-- A run wraps the executable at the one place. -/
theorem wrapEnds_plain :
    PlacedFree sampleHost sampleSetup oneFile plainPlace ∧
      ∃ s, WrapEnds sampleHost sampleSetup plainPlace.root (placed oneFile plainPlace) s ∧
        Wrapped (placed oneFile plainPlace) s.store (below plainPlace.root ['x']) := by
  have hprepared : runAll sampleHost.umask (prepareLog sampleSetup) (placed oneFile plainPlace) =
      some (withLog (placed oneFile plainPlace)) := rfl
  have hlog : LogApart plainPlace.root sampleSetup (placed oneFile plainPlace) :=
    sampleSetup_logApart (by decide) (by decide) (by decide)
  have hfree : PlacedFree sampleHost sampleSetup oneFile plainPlace :=
    placedFree_oneFile hlog hprepared
  have hmatch : wrapMatching sampleHost plainPlace.root (withLog (placed oneFile plainPlace))
      (below plainPlace.root ['x']) := ⟨by decide, by decide, _, _, rfl, by decide⟩
  have hsingle : ∀ other, wrapMatching sampleHost plainPlace.root
      (withLog (placed oneFile plainPlace)) other → other = below plainPlace.root ['x'] :=
    fun _ hother => eq_of_matching_oneFile (by decide) hother
  have hrun : ∃ s, FeedLoop.Reachable (wrapScript sampleHost sampleSetup plainPlace.root)
      (withLog (placed oneFile plainPlace)) s ∧ s.Finished ∧ s.failed = false ∧ s.store = _ ∧
        s.taken = _ :=
    FeedLoop.reachable_of_single _ hmatch hsingle rfl
  obtain ⟨s, hreach, hfinished, hsound, _, _⟩ := hrun
  refine ⟨hfree, s, .looped _ s hprepared hreach hfinished, ?_⟩
  have hsucceeds : WrapSucceeds sampleHost sampleSetup plainPlace.root (placed oneFile plainPlace) s :=
    ⟨⟨_, hprepared, hreach⟩, hfinished, hsound⟩
  rw [hsucceeds.wrapped_iff hfree.names hfree.log]
  exact ⟨⟨by decide, by decide, _, _, rfl, by decide⟩, by decide⟩

/-- A run finds nothing to wrap at the other. -/
theorem wrapEnds_pkg :
    PlacedFree sampleHost sampleSetup oneFile pkgPlace ∧
      ∃ s, WrapEnds sampleHost sampleSetup pkgPlace.root (placed oneFile pkgPlace) s ∧
        ¬ IsWrapper (s.store (below pkgPlace.root ['x'])) := by
  have hprepared : runAll sampleHost.umask (prepareLog sampleSetup) (placed oneFile pkgPlace) =
      some (withLog (placed oneFile pkgPlace)) := rfl
  have hlog : LogApart pkgPlace.root sampleSetup (placed oneFile pkgPlace) :=
    sampleSetup_logApart (by decide) (by decide) (by decide)
  have hnone : ∀ path, ¬ wrapMatching sampleHost pkgPlace.root (withLog (placed oneFile pkgPlace))
      path := by
    intro path hpath
    have houtside := hpath.2.1
    rw [eq_of_matching_oneFile (by decide) hpath] at houtside
    revert houtside
    decide
  have hrun : ∃ s, FeedLoop.Reachable (wrapScript sampleHost sampleSetup pkgPlace.root)
      (withLog (placed oneFile pkgPlace)) s ∧ s.Finished ∧ s.failed = false ∧
        s.store = withLog (placed oneFile pkgPlace) ∧ s.taken = [] :=
    FeedLoop.reachable_of_none hnone
  obtain ⟨s, hreach, hfinished, _, hstore, _⟩ := hrun
  refine ⟨placedFree_oneFile hlog hprepared, s, .looped _ s hprepared hreach hfinished, ?_⟩
  rw [hstore]
  rintro ⟨content, mode, hfile, hline, _⟩
  have helf : withLog (placed oneFile pkgPlace) (below pkgPlace.root ['x']) = some sampleElf := rfl
  rw [helf] at hfile
  cases hfile
  revert hline
  decide

end Sample

end Icflow.Wrap
