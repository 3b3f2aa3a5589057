import Mathlib.Data.List.Induction
import Mathlib.Data.List.Infix
import Mathlib.Data.Set.Insert
import Mathlib.Logic.Function.Basic

set_option autoImplicit false

/-!
# Storing files below directories

A store maps paths, lists of components over any type `κ`, to objects.  Directories are
made down to the parent of a file and the file is opened, which truncates or creates it,
and written.  `τ` is what a symbolic link holds; the paths here are those on which all
links have been followed, so a link in the way is one that leads nowhere.
-/

namespace Icflow.Foundation

/-- An object of a store. -/
inductive Node (τ : Type) where
  | file (bytes : List Char)
  | directory
  | symlink (target : τ)
  /-- a device or a pipe, which a write leaves as it is -/
  | special
  /-- a socket, which cannot be opened -/
  | socket
  deriving DecidableEq

/-- The objects by path. -/
abbrev Store (κ τ : Type) := List κ → Option (Node τ)

namespace Store

variable {κ τ : Type} {s : Store κ τ} {path upper : List κ}

/-- Objects are in directories. -/
structure WellFormed (s : Store κ τ) : Prop where
  root : s [] = some .directory
  parent : ∀ path name, s (path ++ [name]) ≠ none → s path = some .directory

/-- `upper` is a directory that `path` is in, directly or not. -/
def Above (upper path : List κ) : Prop := upper <+: path ∧ upper ≠ path

instance decidableAbove [DecidableEq κ] (upper path : List κ) : Decidable (Above upper path) :=
  inferInstanceAs (Decidable (_ ∧ _))

theorem above_concat {name : κ} : Above upper (path ++ [name]) ↔ upper <+: path := by
  constructor
  · intro h
    rcases List.prefix_concat_iff.mp h.1 with heq | hprefix
    · exact absurd heq h.2
    · exact hprefix
  · intro h
    refine ⟨h.trans (List.prefix_append path [name]), ?_⟩
    rintro rfl
    have hlength := h.length_le
    rw [List.length_append, List.length_singleton] at hlength
    omega

theorem above_of_above_concat {name : κ} (h : Above (upper ++ [name]) path) : Above upper path := by
  have hupper : Above upper (upper ++ [name]) := above_concat.mpr (List.prefix_refl upper)
  refine ⟨hupper.1.trans h.1, ?_⟩
  rintro rfl
  have hlength := h.1.length_le
  rw [List.length_append, List.length_singleton] at hlength
  omega

theorem Above.prefix_dropLast (h : Above upper path) : upper <+: path.dropLast := by
  rcases List.eq_nil_or_concat' path with rfl | ⟨init, name, rfl⟩
  · exact absurd (List.prefix_nil.mp h.1) h.2
  · rw [List.dropLast_concat]
    exact above_concat.mp h

theorem above_iff_prefix_dropLast (hpath : path ≠ []) :
    Above upper path ↔ upper <+: path.dropLast := by
  rcases List.eq_nil_or_concat' path with rfl | ⟨init, name, rfl⟩
  · exact absurd rfl hpath
  · rw [List.dropLast_concat, above_concat]

theorem not_prefix_dropLast (hpath : path ≠ []) : ¬ path <+: path.dropLast := by
  intro h
  exact ((above_iff_prefix_dropLast hpath).mpr h).2 rfl

/-- Whatever is above an object is a directory. -/
theorem WellFormed.above (h : WellFormed s) (hpath : s path ≠ none) (hupper : Above upper path) :
    s upper = some .directory := by
  induction path using List.reverseRecOn with
  | nil => exact absurd (List.prefix_nil.mp hupper.1) hupper.2
  | append_singleton init name ih =>
      have hinit := h.parent init name hpath
      by_cases heq : upper = init
      · rw [heq]
        exact hinit
      · refine ih ?_ ⟨above_concat.mp hupper, heq⟩
        rw [hinit]
        exact Option.some_ne_none _

/-! ## Making directories -/

section Directories

variable [DecidableEq κ]

/-- Make a directory, and first the one it is in when that is missing.  The components
come innermost first. -/
def mkdirUp (s : Store κ τ) : List κ → Option (Store κ τ)
  | [] =>
      match s [] with
      | some .directory => some s
      | _ => none
  | name :: up =>
      match s (name :: up).reverse with
      | some .directory => some s
      | some _ => none
      | none =>
          (mkdirUp s up).map fun made =>
            Function.update made (name :: up).reverse (some .directory)

/-- `mkdir(parents=True, exist_ok=True)`; `none` is a failure, which makes nothing. -/
def mkdir (s : Store κ τ) (path : List κ) : Option (Store κ τ) := mkdirUp s path.reverse

/-- The store with directories all the way down to a path. -/
def withDirectories (s : Store κ τ) (path : List κ) : Store κ τ := fun upper =>
  if upper <+: path then some .directory else s upper

/-- There is nothing, or a directory. -/
def Passable (s : Store κ τ) (path : List κ) : Prop :=
  s path = none ∨ s path = some .directory

theorem withDirectories_upper (h : upper <+: path) :
    withDirectories s path upper = some .directory := if_pos h

theorem withDirectories_other (h : ¬ upper <+: path) :
    withDirectories s path upper = s upper := if_neg h

theorem mkdir_concat (s : Store κ τ) (path : List κ) (name : κ) :
    mkdir s (path ++ [name]) =
      match s (path ++ [name]) with
      | some .directory => some s
      | some _ => none
      | none => (mkdir s path).map fun made =>
          Function.update made (path ++ [name]) (some .directory) := by
  have hreverse : (name :: path.reverse).reverse = path ++ [name] := by simp
  rw [mkdir, List.reverse_append, List.reverse_singleton, List.singleton_append, mkdirUp,
    hreverse, mkdir]

/-- Directories are made when nothing else is in the way. -/
theorem mkdir_of_passable (h : WellFormed s) (hclear : ∀ upper, upper <+: path → Passable s upper) :
    mkdir s path = some (withDirectories s path) := by
  induction path using List.reverseRecOn with
  | nil =>
      have hroot : withDirectories s [] = s := by
        funext upper
        by_cases hupper : upper <+: []
        · rw [withDirectories_upper hupper, List.prefix_nil.mp hupper, h.root]
        · exact withDirectories_other hupper
      rw [mkdir, List.reverse_nil, mkdirUp, h.root, hroot]
  | append_singleton path name ih =>
      rw [mkdir_concat]
      rcases hclear _ (List.prefix_refl _) with hnone | hdirectory
      · have hprefix : ∀ upper, upper <+: path → Passable s upper := fun upper hupper =>
          hclear upper (hupper.trans (List.prefix_append path [name]))
        rw [hnone, ih hprefix, Option.map_some]
        refine congrArg some (funext fun upper => ?_)
        by_cases heq : upper = path ++ [name]
        · rw [heq, Function.update_self, withDirectories_upper (List.prefix_refl _)]
        · rw [Function.update_of_ne heq]
          by_cases hupper : upper <+: path
          · rw [withDirectories_upper hupper,
              withDirectories_upper (hupper.trans (List.prefix_append path [name]))]
          · have hnot : ¬ upper <+: path ++ [name] := fun hcontra =>
              hupper (above_concat.mp ⟨hcontra, heq⟩)
            rw [withDirectories_other hupper, withDirectories_other hnot]
      · have hsome : s (path ++ [name]) ≠ none := by
          rw [hdirectory]
          exact Option.some_ne_none _
        rw [hdirectory]
        refine congrArg some (funext fun upper => ?_)
        by_cases hupper : upper <+: path ++ [name]
        · rw [withDirectories_upper hupper]
          by_cases heq : upper = path ++ [name]
          · rw [heq, hdirectory]
          · exact h.above hsome ⟨hupper, heq⟩
        · exact (withDirectories_other hupper).symm

/-- Something else in the way makes it fail. -/
theorem mkdir_of_blocked (h : WellFormed s) (hupper : upper <+: path)
    (hblocked : ¬ Passable s upper) : mkdir s path = none := by
  induction path using List.reverseRecOn with
  | nil =>
      obtain rfl := List.prefix_nil.mp hupper
      exact absurd (Or.inr h.root) hblocked
  | append_singleton path name ih =>
      rw [mkdir_concat]
      by_cases heq : upper = path ++ [name]
      · subst heq
        cases hnode : s (path ++ [name]) with
        | none => exact absurd (Or.inl hnode) hblocked
        | some node =>
            cases node with
            | directory => exact absurd (Or.inr hnode) hblocked
            | file bytes => rfl
            | symlink target => rfl
            | special => rfl
            | socket => rfl
      · have hnone : s (path ++ [name]) = none := by
          by_contra hsome
          exact hblocked (Or.inr (h.above hsome ⟨hupper, heq⟩))
        rw [hnone, ih (above_concat.mp ⟨hupper, heq⟩)]
        rfl

/-- What it takes to make directories, and what it leaves. -/
theorem mkdir_eq_some (h : WellFormed s) {made : Store κ τ} (hmade : mkdir s path = some made) :
    (∀ upper, upper <+: path → Passable s upper) ∧ made = withDirectories s path := by
  have hclear : ∀ upper, upper <+: path → Passable s upper := by
    intro upper hupper
    by_contra hblocked
    rw [mkdir_of_blocked h hupper hblocked] at hmade
    cases hmade
  rw [mkdir_of_passable h hclear] at hmade
  exact ⟨hclear, (Option.some.inj hmade).symm⟩

/-- The directories made are part of a well-formed store. -/
theorem WellFormed.withDirectories (h : WellFormed s) (path : List κ) :
    WellFormed (withDirectories s path) where
  root := withDirectories_upper List.nil_prefix
  parent := by
    intro upper name hsome
    by_cases hupper : upper <+: path
    · exact withDirectories_upper hupper
    · have hnot : ¬ upper ++ [name] <+: path := fun hcontra =>
        hupper ((List.prefix_append upper [name]).trans hcontra)
      rw [withDirectories_other hnot] at hsome
      rw [withDirectories_other hupper]
      exact h.parent upper name hsome

end Directories

/-! ## Writing -/

/-- Why a write fails. -/
inductive WriteFault where
  /-- the path cannot be opened for writing -/
  | osError
  /-- the text cannot be encoded, which shows after the file is opened -/
  | encodeError
  deriving DecidableEq

section Writing

variable [DecidableEq κ]

/-- Write to a file that is open: `none` is a text that cannot be encoded, and leaves the
file empty. -/
def put (s : Store κ τ) (path : List κ) (content : Option (List Char)) :
    Store κ τ × Except WriteFault Unit :=
  match content with
  | some bytes => (Function.update s path (some (.file bytes)), .ok ())
  | none => (Function.update s path (some (.file [])), .error .encodeError)

/-- Open for writing and write. -/
def write (s : Store κ τ) (path : List κ) (content : Option (List Char)) :
    Store κ τ × Except WriteFault Unit :=
  match s path with
  | some (.file _) => put s path content
  | some .special =>
      match content with
      | some _ => (s, .ok ())
      | none => (s, .error .encodeError)
  | some .directory => (s, .error .osError)
  | some (.symlink _) => (s, .error .osError)
  | some .socket => (s, .error .osError)
  | none =>
      match s path.dropLast with
      | some .directory => put s path content
      | _ => (s, .error .osError)

/-- Make the directories a file is in, and write it. -/
def save (s : Store κ τ) (path : List κ) (content : Option (List Char)) :
    Store κ τ × Except WriteFault Unit :=
  match mkdir s path.dropLast with
  | none => (s, .error .osError)
  | some made => write made path content

/-- Save files until one cannot be saved. -/
def saveAll (s : Store κ τ) : List (List κ × Option (List Char)) → Store κ τ × Except WriteFault Unit
  | [] => (s, .ok ())
  | (path, content) :: rest =>
      match save s path content with
      | (s', .error fault) => (s', .error fault)
      | (s', .ok ()) => saveAll s' rest

/-- How a save ends once the file is open. -/
def saveResult (content : Option (List Char)) : Except WriteFault Unit :=
  match content with
  | some _ => .ok ()
  | none => .error .encodeError

theorem put_eq (s : Store κ τ) (path : List κ) (content : Option (List Char)) :
    put s path content =
      (Function.update s path (some (.file (content.getD []))), saveResult content) := by
  cases content <;> rfl

section Opening

variable {content : Option (List Char)}

theorem write_of_file {bytes : List Char} (h : s path = some (.file bytes)) :
    write s path content = put s path content := by simp only [write, h]

theorem write_of_new (h : s path = none) (hparent : s path.dropLast = some .directory) :
    write s path content = put s path content := by simp only [write, h, hparent]

theorem write_of_special (h : s path = some .special) :
    write s path content = (s, saveResult content) := by
  cases content <;> simp only [write, h, saveResult]

theorem write_of_directory (h : s path = some .directory) (content : Option (List Char)) :
    write s path content = (s, .error .osError) := by simp only [write, h]

theorem write_of_symlink {target : τ} (h : s path = some (.symlink target))
    (content : Option (List Char)) :
    write s path content = (s, .error .osError) := by simp only [write, h]

theorem write_of_socket (h : s path = some .socket) (content : Option (List Char)) :
    write s path content = (s, .error .osError) := by simp only [write, h]

/-- A file can be opened for writing. -/
def Openable (s : Store κ τ) (path : List κ) : Prop :=
  (∃ bytes, s path = some (.file bytes)) ∨ s path = some .special ∨
    s path = none ∧ s path.dropLast = some .directory

/-- A write succeeds when the file can be opened and the text can be encoded. -/
theorem write_ok_iff :
    (write s path content).2 = .ok () ↔ Openable s path ∧ content.isSome = true := by
  have hresult : saveResult content = .ok () ↔ content.isSome = true := by
    cases content <;> simp [saveResult]
  cases hnode : s path with
  | some node =>
      cases node with
      | file bytes =>
          rw [write_of_file hnode, put_eq, hresult]
          simp [Openable, hnode]
      | directory =>
          rw [write_of_directory hnode]
          simp [Openable, hnode]
      | symlink target =>
          rw [write_of_symlink hnode]
          simp [Openable, hnode]
      | special =>
          rw [write_of_special hnode, hresult]
          simp [Openable, hnode]
      | socket =>
          rw [write_of_socket hnode]
          simp [Openable, hnode]
  | none =>
      by_cases hparent : s path.dropLast = some .directory
      · rw [write_of_new hnode hparent, put_eq, hresult]
        simp [Openable, hnode, hparent]
      · simp [write, hnode, Openable, hparent]

end Opening

end Writing

/-! ## What stays -/

/-- No link has changed, and no file except those at `written`. -/
structure Touches (written : Set (List κ)) (s s' : Store κ τ) : Prop where
  link : ∀ path target, s' path = some (.symlink target) ↔ s path = some (.symlink target)
  file : ∀ path, path ∉ written → ∀ bytes,
    s' path = some (.file bytes) ↔ s path = some (.file bytes)

namespace Touches

variable {s' s'' : Store κ τ} {written : Set (List κ)}

theorem refl (written : Set (List κ)) (s : Store κ τ) : Touches written s s :=
  ⟨fun _ _ => Iff.rfl, fun _ _ _ => Iff.rfl⟩

theorem trans (h : Touches written s s') (h' : Touches written s' s'') :
    Touches written s s'' where
  link := fun path target => (h'.link path target).trans (h.link path target)
  file := fun path hpath bytes => (h'.file path hpath bytes).trans (h.file path hpath bytes)

theorem mono {more : Set (List κ)} (h : Touches written s s') (hmore : written ⊆ more) :
    Touches more s s' where
  link := h.link
  file := fun path hpath => h.file path fun hmem => hpath (hmore hmem)

end Touches

section Frame

variable [DecidableEq κ] {written : Set (List κ)}

/-- One object that is not a link is replaced by another. -/
theorem touches_update {node : Node τ} (hold : ∀ target, s path ≠ some (.symlink target))
    (hnew : ∀ target, node ≠ .symlink target)
    (hfile : path ∈ written ∨ s path = none ∧ node = .directory) :
    Touches written s (Function.update s path (some node)) where
  link := by
    intro other target
    by_cases heq : other = path
    · rw [heq, Function.update_self]
      constructor
      · intro h
        exact absurd (Option.some.inj h) (hnew target)
      · intro h
        exact absurd h (hold target)
    · rw [Function.update_of_ne heq]
  file := by
    intro other hother bytes
    by_cases heq : other = path
    · subst heq
      obtain ⟨hnone, rfl⟩ := hfile.resolve_left hother
      rw [Function.update_self, hnone]
      simp
    · rw [Function.update_of_ne heq]

theorem touches_mkdir (hs : WellFormed s) {made : Store κ τ} (h : mkdir s path = some made) :
    Touches written s made := by
  obtain ⟨hclear, rfl⟩ := mkdir_eq_some hs h
  constructor
  · intro other target
    by_cases hother : other <+: path
    · rw [withDirectories_upper hother]
      rcases hclear other hother with hnone | hdirectory
      · simp [hnone]
      · simp [hdirectory]
    · rw [withDirectories_other hother]
  · intro other _ bytes
    by_cases hother : other <+: path
    · rw [withDirectories_upper hother]
      rcases hclear other hother with hnone | hdirectory
      · simp [hnone]
      · simp [hdirectory]
    · rw [withDirectories_other hother]

/-- A write either leaves the store alone or puts a file where one is or can be. -/
theorem write_cases (s : Store κ τ) (path : List κ) (content : Option (List Char)) :
    (write s path content).1 = s ∨
      ((write s path content).1 = Function.update s path (some (.file (content.getD []))) ∧
        ((∃ bytes, s path = some (.file bytes)) ∨
          s path = none ∧ s path.dropLast = some .directory)) := by
  cases hnode : s path with
  | some node =>
      cases node with
      | file bytes =>
          rw [write_of_file hnode, put_eq]
          exact Or.inr ⟨rfl, Or.inl ⟨bytes, rfl⟩⟩
      | directory =>
          rw [write_of_directory hnode]
          exact Or.inl rfl
      | symlink target =>
          rw [write_of_symlink hnode]
          exact Or.inl rfl
      | special =>
          rw [write_of_special hnode]
          exact Or.inl rfl
      | socket =>
          rw [write_of_socket hnode]
          exact Or.inl rfl
  | none =>
      by_cases hparent : s path.dropLast = some .directory
      · rw [write_of_new hnode hparent, put_eq]
        exact Or.inr ⟨rfl, Or.inr ⟨rfl, hparent⟩⟩
      · left
        simp only [write, hnode]

/-- A file that is written has the bytes it was written with. -/
theorem write_file_self {old : List Char} (h : s path = some (.file old)) (bytes : List Char) :
    (write s path (some bytes)).1 path = some (.file bytes) := by
  rw [write_of_file h]
  exact Function.update_self path _ s

/-- A file stays a file. -/
theorem write_keeps_file {other : List κ} {old : List Char} (h : s other = some (.file old))
    (path : List κ) (content : Option (List Char)) :
    ∃ bytes, (write s path content).1 other = some (.file bytes) := by
  rcases write_cases s path content with hsame | ⟨hput, _⟩
  · rw [hsame]
    exact ⟨old, h⟩
  · rw [hput]
    by_cases heq : other = path
    · rw [heq, Function.update_self]
      exact ⟨_, rfl⟩
    · rw [Function.update_of_ne heq]
      exact ⟨old, h⟩

/-- A write changes one path. -/
theorem write_other {other : List κ} (hother : other ≠ path) (content : Option (List Char)) :
    (write s path content).1 other = s other := by
  rcases write_cases s path content with hsame | ⟨hput, _⟩
  · rw [hsame]
  · rw [hput, Function.update_of_ne hother]

/-- After a write to a file that could be opened the same files can be opened. -/
theorem Openable.write_iff (h : Openable s path) {other : List κ} (content : Option (List Char)) :
    Openable (Store.write s path content).1 other ↔ Openable s other := by
  by_cases heq : other = path
  · rw [heq]
    refine ⟨fun _ => h, fun _ => ?_⟩
    rcases write_cases s path content with hsame | ⟨hput, _⟩
    · rwa [hsame]
    · rw [hput]
      exact Or.inl ⟨_, Function.update_self path _ s⟩
  · have hparent : (Store.write s path content).1 other.dropLast = some .directory ↔
        s other.dropLast = some .directory := by
      by_cases hup : other.dropLast = path
      · rw [hup]
        have hbefore : s path ≠ some .directory := by
          intro hdirectory
          simp [Openable, hdirectory] at h
        rcases write_cases s path content with hsame | ⟨hput, _⟩
        · rw [hsame]
        · rw [hput, Function.update_self]
          simp [hbefore]
      · rw [write_other hup]
    rw [Openable, Openable, write_other heq, hparent]

theorem touches_write (hpath : path ∈ written) (s : Store κ τ) (content : Option (List Char)) :
    Touches written s (write s path content).1 := by
  rcases write_cases s path content with hsame | ⟨hput, hold⟩
  · rw [hsame]
    exact Touches.refl written s
  · rw [hput]
    refine touches_update ?_ (fun _ => nofun) (Or.inl hpath)
    intro target hlink
    rcases hold with ⟨bytes, hfile⟩ | ⟨hnone, _⟩
    · rw [hfile] at hlink
      cases hlink
    · rw [hnone] at hlink
      cases hlink

theorem WellFormed.write (hs : WellFormed s) (path : List κ) (content : Option (List Char)) :
    WellFormed (Store.write s path content).1 := by
  rcases write_cases s path content with hsame | ⟨hput, hold⟩
  · rw [hsame]
    exact hs
  · rw [hput]
    have hnot : s path ≠ some .directory := by
      intro hdirectory
      rcases hold with ⟨bytes, hfile⟩ | ⟨hnone, _⟩
      · rw [hfile] at hdirectory
        cases hdirectory
      · rw [hnone] at hdirectory
        cases hdirectory
    have hkeep : ∀ other, s other = some .directory →
        Function.update s path (some (.file (content.getD []))) other = some .directory := by
      intro other hother
      rw [Function.update_of_ne, hother]
      rintro rfl
      exact hnot hother
    refine ⟨hkeep [] hs.root, ?_⟩
    intro upper name hsome
    refine hkeep upper ?_
    by_cases heq : upper ++ [name] = path
    · rcases hold with ⟨bytes, hfile⟩ | ⟨_, hparent⟩
      · refine hs.parent upper name ?_
        rw [heq, hfile]
        exact Option.some_ne_none _
      · rwa [← heq, List.dropLast_concat] at hparent
    · rw [Function.update_of_ne heq] at hsome
      exact hs.parent upper name hsome

/-- A file can be opened for writing once the directories above it are made. -/
def Savable (s : Store κ τ) (path : List κ) : Prop :=
  ∃ made, mkdir s path.dropLast = some made ∧ Openable made path

theorem save_ok_iff {content : Option (List Char)} :
    (save s path content).2 = .ok () ↔ Savable s path ∧ content.isSome = true := by
  unfold save Savable
  cases hmkdir : mkdir s path.dropLast with
  | none => simp
  | some made => simp [write_ok_iff]

/-- What a write leaves behind: the file with these bytes, or what takes them in. -/
theorem Openable.write_self (h : Openable s path) (bytes : List Char) :
    (Store.write s path (some bytes)).1 path = some (.file bytes) ∨
      (Store.write s path (some bytes)).1 path = some .special := by
  rcases h with ⟨old, hfile⟩ | hspecial | ⟨hnone, hparent⟩
  · exact Or.inl (write_file_self hfile bytes)
  · rw [write_of_special hspecial]
    exact Or.inr hspecial
  · rw [write_of_new hnone hparent]
    exact Or.inl (Function.update_self path _ s)

theorem save_ok_self {bytes : List Char} (h : (save s path (some bytes)).2 = .ok ()) :
    (save s path (some bytes)).1 path = some (.file bytes) ∨
      (save s path (some bytes)).1 path = some .special := by
  obtain ⟨⟨made, hmkdir, hopen⟩, _⟩ := save_ok_iff.mp h
  have hsave : save s path (some bytes) = write made path (some bytes) := by
    simp only [save, hmkdir]
  rw [hsave]
  exact hopen.write_self bytes

theorem save_frame (hs : WellFormed s) (hpath : path ∈ written) (content : Option (List Char)) :
    WellFormed (save s path content).1 ∧ Touches written s (save s path content).1 := by
  unfold save
  cases hmkdir : mkdir s path.dropLast with
  | none => exact ⟨hs, Touches.refl written s⟩
  | some made =>
      have hmade : WellFormed made := by
        rw [(mkdir_eq_some hs hmkdir).2]
        exact hs.withDirectories _
      exact ⟨hmade.write path content,
        (touches_mkdir hs hmkdir).trans (touches_write hpath made content)⟩

/-- Saving files changes no others. -/
theorem saveAll_frame (hs : WellFormed s) {entries : List (List κ × Option (List Char))}
    (hentries : ∀ entry ∈ entries, entry.1 ∈ written) :
    WellFormed (saveAll s entries).1 ∧ Touches written s (saveAll s entries).1 := by
  induction entries generalizing s with
  | nil => exact ⟨hs, Touches.refl written s⟩
  | cons entry rest ih =>
      obtain ⟨path, content⟩ := entry
      obtain ⟨hpath, hrest⟩ := List.forall_mem_cons.mp hentries
      have hfirst := save_frame hs hpath content
      unfold saveAll
      cases hsave : save s path content with
      | mk s' result =>
          rw [hsave] at hfirst
          cases result with
          | error fault => exact hfirst
          | ok _ =>
              obtain ⟨hformed, htouches⟩ := ih hfirst.1 hrest
              exact ⟨hformed, hfirst.2.trans htouches⟩

end Frame

end Store

end Icflow.Foundation
