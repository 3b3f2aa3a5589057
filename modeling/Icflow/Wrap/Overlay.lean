import Icflow.Foundation.Numeral
import Icflow.Wrap.Scripts
import Mathlib.Data.Set.Insert

set_option autoImplicit false

/-!
# What a tree looks like while some of its files are wrapped

`Overlay T W fs` says that `fs` is the tree `T` with the files of `W` wrapped: at the
path of each there is a wrapper, at its backup path the file itself, and everything
else is as in `T`.  Between two iterations every state of the scripts is of this form.
-/

namespace Icflow.Wrap

open Icflow.Foundation

/-! ## Names -/

theorem orig_injective : Function.Injective orig := by
  intro a b h
  exact List.append_cancel_right h

theorem isSuffixOf_orig (x : Path) : ".orig".toList.isSuffixOf (orig x) = true :=
  List.isSuffixOf_iff_suffix.mpr (List.suffix_append x ".orig".toList)

theorem skippedName_orig (x : Path) : skippedName (orig x) = true := by
  unfold skippedName
  rw [isSuffixOf_orig, Bool.true_or, Bool.true_or]

theorem stripOrig_orig (x : Path) : stripOrig (orig x) = x := by
  have hlength : (orig x).length - ".orig".toList.length = x.length := by
    rw [orig, List.length_append, Nat.add_sub_cancel]
  rw [stripOrig, hlength, orig, List.take_left]

theorem orig_stripOrig {path : Path} (h : ".orig".toList.isSuffixOf path = true) :
    orig (stripOrig path) = path := by
  obtain ⟨x, rfl⟩ := List.isSuffixOf_iff_suffix.mp h
  have hstrip : stripOrig (x ++ ".orig".toList) = x := stripOrig_orig x
  rw [hstrip]
  rfl

theorem orig_ne_self (x : Path) : orig x ≠ x := by
  intro h
  have hlength := congrArg List.length h
  have hpos : 0 < ".orig".toList.length := by decide
  rw [orig, List.length_append] at hlength
  omega

theorem temporaryWrapper_ne_self (pid : Nat) (x : Path) : temporaryWrapper pid x ≠ x := by
  intro h
  have hlength := congrArg List.length h
  have hpos : 0 < ".mypintool-wrapper.".toList.length := by decide
  rw [temporaryWrapper, List.length_append, List.length_append] at hlength
  omega

/-- A temporary name ends with a digit. -/
theorem getLast?_temporaryWrapper (pid : Nat) (x : Path) :
    ∃ digit < 10, (temporaryWrapper pid x).getLast? = some (Nat.digitChar digit) := by
  have hlow : 1 < 10 := by omega
  have hhigh : 10 ≤ 16 := by omega
  obtain ⟨value, rest, _, hdigits⟩ := toDigits_eq_cons hlow hhigh pid
  have hne : Nat.toDigits 10 pid ≠ [] := by
    rw [hdigits]
    exact List.cons_ne_nil _ _
  obtain ⟨digit, hdigit, hchar⟩ := mem_toDigits hlow pid _ (List.getLast_mem hne)
  refine ⟨digit, hdigit, ?_⟩
  rw [temporaryWrapper, List.getLast?_append_of_ne_nil _ hne, List.getLast?_eq_getLast_of_ne_nil hne,
    hchar]

theorem temporaryWrapper_ne_orig (pid : Nat) (x y : Path) : temporaryWrapper pid x ≠ orig y := by
  intro h
  obtain ⟨digit, hdigit, hlast⟩ := getLast?_temporaryWrapper pid x
  have horig : (orig y).getLast? = some 'g' := by
    rw [orig, List.getLast?_append_of_ne_nil _ (by decide)]
    decide
  rw [h, horig] at hlast
  have hdigits : ∀ v < 10, some 'g' ≠ some (Nat.digitChar v) := by decide
  exact hdigits digit hdigit hlast

/-! ## Wrappers -/

/-- The object is the file of a wrapper. -/
def IsWrapper (node : Option Node) : Prop :=
  ∃ content mode, node = some (.file content mode) ∧ hasLine marker content = true ∧
    content.head? = some '#'

theorem isWrapper_wrapperText (host : Host) (setup : Setup) (original : Path) (mode : Nat) :
    IsWrapper (some (.file (wrapperText host setup original) mode)) := by
  refine ⟨wrapperText host setup original, mode, rfl, ?_, ?_⟩
  · have hshebang : '\n' ∉ shebang := by decide
    have hmarker : '\n' ∉ marker := by decide
    rw [hasLine_iff, wrapperText, LineFile.zapNulls_append_newline (by decide),
      LineFile.zapNulls_append_newline (by decide), pieces_append_newline hshebang,
      pieces_append_newline hmarker]
    exact List.mem_cons_of_mem _ List.mem_cons_self
  · have hhash : shebang.head? = some '#' := by decide
    rw [wrapperText, List.head?_append, hhash, Option.some_or]

/-- No wrapper is described as an ELF file. -/
theorem not_describesExecutable (host : Host) {content : List Char}
    (hhead : content.head? = some '#') (mode : Nat) :
    describesExecutable (host.fileDescription content mode) = false := by
  by_contra h
  rw [Bool.not_eq_false, describesExecutable, Bool.and_eq_true] at h
  have helf := host.elf_magic content mode h.1
  rw [hhead] at helf
  cases helf

/-! ## Trees -/

/-- A file the wrap loop would wrap if nothing were at its backup path. -/
def Wrappable (host : Host) (root : Path) (T : FileSystem) (x : Path) : Prop :=
  inTree root x = true ∧ containsText "/pkg/".toList x = false ∧ skippedName x = false ∧
    ∃ content mode, T x = some (.file content mode) ∧ host.executable mode = true ∧
      describesExecutable (host.fileDescription content mode) = true

/-- No file of the tree contains the marker line. -/
def Unmarked (root : Path) (T : FileSystem) : Prop :=
  ∀ path content mode, inTree root path = true → T path = some (.file content mode) →
    hasLine marker content = false

/-- At the backup path is a directory that `mv` refuses to move the file into. -/
def Refused (T : FileSystem) (x : Path) : Prop :=
  ∃ directory, resolve T (orig x) = some directory ∧ T directory = some .directory ∧
    T (directory ++ '/' :: filename x) = some .directory

/-- When the wrap loop looks at a file that it is about to wrap, the names that it is going to
use are free, or `mv` refuses to move the file. -/
def WrapClear (host : Host) (setup : Setup) (taken : FileSystem × Path) : Prop :=
  wrapBody host setup taken.1 taken.2 = [] ∨
    (taken.1 (orig taken.2) = none ∧ taken.1 (temporaryWrapper setup.pid taken.2) = none) ∨
      Refused taken.1 taken.2

/-- When the restore loop is about to replace a file, that is no link to a wrapper. -/
def RestoreClear (taken : FileSystem × Path) : Prop :=
  restoreBody taken.1 taken.2 = [] ∨
    ∃ content mode, taken.1 (stripOrig taken.2) = some (.file content mode)

/-- What the wrap loop takes for granted about names. -/
structure NamesFree (host : Host) (setup : Setup) (root : Path) (T : FileSystem) : Prop where
  /-- A backup path is free, or what is there keeps the file from being moved. -/
  backup : ∀ x, Wrappable host root T x →
    T (orig x) = none ∨ isRegular T (orig x) = true ∨ Refused T x
  /-- The temporary paths of the files that get wrapped are free. -/
  temporary : ∀ x, Wrappable host root T x → T (orig x) = none →
    T (temporaryWrapper setup.pid x) = none

/-- What the two scripts take for granted about names. -/
structure CollisionFree (host : Host) (root : Path) (T : FileSystem) : Prop where
  /-- A backup path is free, or what is there keeps the file from being moved. -/
  backup : ∀ x, Wrappable host root T x →
    T (orig x) = none ∨ isRegular T (orig x) = true ∨ Refused T x
  /-- The temporary paths of the files that get wrapped are free. -/
  temporary : ∀ x pid, Wrappable host root T x → T (orig x) = none →
    T (temporaryWrapper pid x) = none
  /-- A link with a regular file at its own backup path leads to no file that bears the
  marker or may get wrapped. -/
  link : ∀ y target content mode, T y = some (.symlink target) → inTree root (orig y) = true →
    T (orig y) = some (.file content mode) → ∀ path, resolve T y = some path →
      (∀ content' mode', T path = some (.file content' mode') →
        hasLine marker content' = false) ∧
      ¬ (Wrappable host root T path ∧ T (orig path) = none)

theorem CollisionFree.names {host : Host} {root : Path} {T : FileSystem}
    (h : CollisionFree host root T) (setup : Setup) : NamesFree host setup root T where
  backup := h.backup
  temporary := fun x => h.temporary x setup.pid

/-- The tree with the files of `W` wrapped. -/
structure Overlay (host : Host) (root : Path) (T : FileSystem) (W : Set Path) (fs : FileSystem) :
    Prop where
  wrapper : ∀ x ∈ W, IsWrapper (fs x)
  backup : ∀ x ∈ W, fs (orig x) = T x
  rest : ∀ path, path ∉ W → (∀ x ∈ W, path ≠ orig x) → fs path = T path
  wrappable : ∀ x ∈ W, Wrappable host root T x
  free : ∀ x ∈ W, T (orig x) = none

section Overlay

variable {host : Host} {root : Path} {T : FileSystem} {W : Set Path} {fs : FileSystem}

theorem overlay_self (host : Host) (root : Path) (T : FileSystem) :
    Overlay host root T ∅ T where
  wrapper := fun _ h => h.elim
  backup := fun _ h => h.elim
  rest := fun _ _ _ => rfl
  wrappable := fun _ h => h.elim
  free := fun _ h => h.elim

theorem Overlay.eq_of_empty (h : Overlay host root T ∅ fs) : fs = T := by
  funext path
  exact h.rest path (Set.notMem_empty path) fun _ hx => hx.elim

theorem Wrappable.ne_orig {x : Path} (h : Wrappable host root T x) (y : Path) : x ≠ orig y := by
  rintro rfl
  have hname := h.2.2.1
  rw [skippedName_orig] at hname
  cases hname

/-- Every path is wrapped, a backup of a wrapped file, or as in the tree. -/
theorem Overlay.cases (h : Overlay host root T W fs) (path : Path) :
    path ∈ W ∨ (∃ x ∈ W, path = orig x) ∨ fs path = T path := by
  by_cases hW : path ∈ W
  · exact Or.inl hW
  · by_cases horig : ∃ x ∈ W, path = orig x
    · exact Or.inr (Or.inl horig)
    · exact Or.inr (Or.inr (h.rest path hW fun x hx heq => horig ⟨x, hx, heq⟩))

/-- Wrapping touches no link. -/
theorem Overlay.links (h : Overlay host root T W fs) (path target : Path) :
    T path = some (.symlink target) ↔ fs path = some (.symlink target) := by
  rcases h.cases path with hW | ⟨x, hx, rfl⟩ | hsame
  · obtain ⟨_, _, _, content, mode, hfile, _⟩ := h.wrappable path hW
    obtain ⟨content', mode', hwrapper, _⟩ := h.wrapper path hW
    rw [hfile, hwrapper]
    constructor <;> intro h <;> cases h
  · obtain ⟨_, _, _, content, mode, hfile, _⟩ := h.wrappable x hx
    rw [h.free x hx, h.backup x hx, hfile]
    constructor <;> intro h <;> cases h
  · rw [hsame]

/-- Where an overlay has nothing, the tree has nothing. -/
theorem Overlay.free_of_free (h : Overlay host root T W fs) {path : Path}
    (hnone : fs path = none) : T path = none := by
  rcases h.cases path with hW | ⟨x, hx, rfl⟩ | hsame
  · obtain ⟨content, mode, hwrapper, _⟩ := h.wrapper path hW
    rw [hnone] at hwrapper
    cases hwrapper
  · obtain ⟨_, _, _, content, mode, hfile, _⟩ := h.wrappable x hx
    rw [h.backup x hx, hfile] at hnone
    cases hnone
  · rw [← hsame, hnone]

theorem Overlay.resolve_eq (h : Overlay host root T W fs) : resolve fs = resolve T :=
  (resolve_congr h.links).symm

/-- Wrapping touches no directory. -/
theorem Overlay.directory_iff (h : Overlay host root T W fs) (path : Path) :
    fs path = some .directory ↔ T path = some .directory := by
  rcases h.cases path with hW | ⟨x, hx, rfl⟩ | hsame
  · obtain ⟨_, _, _, content, mode, hfile, _⟩ := h.wrappable path hW
    obtain ⟨content', mode', hwrapper, _⟩ := h.wrapper path hW
    rw [hfile, hwrapper]
    constructor <;> intro h <;> cases h
  · obtain ⟨_, _, _, content, mode, hfile, _⟩ := h.wrappable x hx
    rw [h.free x hx, h.backup x hx, hfile]
    constructor <;> intro h <;> cases h
  · rw [hsame]

theorem Overlay.directory_of (h : Overlay host root T W fs) {path : Path}
    (hdirectory : T path = some .directory) : fs path = some .directory :=
  (h.directory_iff path).mpr hdirectory

theorem Overlay.refused_iff (h : Overlay host root T W fs) (x : Path) :
    Refused fs x ↔ Refused T x := by
  unfold Refused
  simp only [h.resolve_eq, h.directory_iff]

/-- A regular file stays regular, its bytes or a wrapper. -/
theorem Overlay.isRegular_of (h : Overlay host root T W fs) {path : Path}
    (hregular : isRegular T path = true) : isRegular fs path = true := by
  unfold isRegular lookup at *
  rw [h.resolve_eq]
  cases hresolve : resolve T path with
  | none =>
      rw [hresolve] at hregular
      cases hregular
  | some final =>
      rw [hresolve] at hregular
      simp only [Option.bind_some] at hregular ⊢
      rcases h.cases final with hW | ⟨x, hx, rfl⟩ | hsame
      · obtain ⟨content, mode, hwrapper, _⟩ := h.wrapper final hW
        rw [hwrapper]
      · obtain ⟨_, _, _, content, mode, hfile, _⟩ := h.wrappable x hx
        rw [h.backup x hx, hfile]
      · rw [hsame]
        exact hregular

/-- A regular executable of the state is one of the tree, where the tree has a file. -/
def ModesAgree (host : Host) (T fs : FileSystem) : Prop :=
  ∀ path content mode content' mode', fs path = some (.file content mode) →
    host.executable mode = true → T path = some (.file content' mode') →
    host.executable mode' = true

theorem Overlay.modesAgree (h : Overlay host root T W fs) : ModesAgree host T fs := by
  intro path content mode content' mode' hfile hmode htree
  rcases h.cases path with hW | ⟨x, hx, rfl⟩ | hsame
  · obtain ⟨_, _, _, content₀, mode₀, hfile₀, hmode₀, _⟩ := h.wrappable path hW
    rw [htree] at hfile₀
    cases hfile₀
    exact hmode₀
  · rw [h.free x hx] at htree
    cases htree
  · rw [hsame, htree] at hfile
    cases hfile
    exact hmode

/-- The bytes of every file of the tree are at its own path or at its backup path. -/
def Preserved (T fs : FileSystem) : Prop :=
  ∀ path content mode, T path = some (.file content mode) →
    fs path = some (.file content mode) ∨ fs (orig path) = some (.file content mode)

theorem Overlay.preserved (h : Overlay host root T W fs) : Preserved T fs := by
  intro path content mode hfile
  rcases h.cases path with hW | ⟨x, hx, rfl⟩ | hsame
  · exact Or.inr ((h.backup path hW).trans hfile)
  · rw [h.free x hx] at hfile
    cases hfile
  · exact Or.inl (hsame.trans hfile)

/-- No backup of the tree is a wrapper. -/
def NoWrappedWrapper (root : Path) (fs : FileSystem) : Prop :=
  ∀ x content mode, inTree root x = true → fs (orig x) = some (.file content mode) →
    hasLine marker content = false

theorem inTree_orig {x : Path} (h : inTree root x = true) : inTree root (orig x) = true := by
  rw [inTree, List.isPrefixOf_iff_prefix] at *
  exact h.trans (List.prefix_append x ".orig".toList)

theorem inTree_temporaryWrapper {x : Path} {pid : Nat} (h : inTree root x = true) :
    inTree root (temporaryWrapper pid x) = true := by
  rw [inTree, List.isPrefixOf_iff_prefix] at *
  unfold temporaryWrapper
  rw [List.append_assoc]
  exact h.trans (List.prefix_append x _)

/-- The separator after the root is no part of the suffix. -/
theorem inTree_of_orig {x : Path} (h : inTree root (orig x) = true) : inTree root x = true := by
  rw [inTree, List.isPrefixOf_iff_prefix] at *
  unfold orig at h
  rcases List.prefix_or_prefix_of_prefix h (List.prefix_append x ".orig".toList) with
    hshort | ⟨rest, hrest⟩
  · exact hshort
  · rw [← hrest, List.prefix_append_right_inj] at h
    rcases List.eq_nil_or_concat rest with rfl | ⟨front, last, rfl⟩
    · rw [List.append_nil] at hrest
      exact ⟨[], by rw [hrest, List.append_nil]⟩
    · rw [List.concat_eq_append] at hrest h
      have hlast : last = '/' := by
        rw [← List.append_assoc] at hrest
        exact (List.cons.inj (List.append_inj' hrest rfl).2).1
      have hmem : '/' ∈ ".orig".toList := h.subset (by simp [hlast])
      exact absurd hmem (by decide)

theorem Overlay.noWrappedWrapper (h : Overlay host root T W fs) (hmarker : Unmarked root T) :
    NoWrappedWrapper root fs := by
  intro x content mode hin hfile
  rcases h.cases (orig x) with hW | ⟨y, hy, horig⟩ | hsame
  · exact absurd rfl ((h.wrappable _ hW).ne_orig x)
  · rw [orig_injective horig, h.backup y hy] at hfile
    exact hmarker y content mode (h.wrappable y hy).1 hfile
  · rw [hsame] at hfile
    exact hmarker (orig x) content mode (inTree_orig hin) hfile

end Overlay

end Icflow.Wrap
