import Icflow.PinTool.Pairs
import Icflow.Wrap.Overlay

set_option autoImplicit false

/-!
# `collect_artifacts`

`artifactOf` is the iteration for one result file that `find` reports: the copy of the
file, and the copy of the binary it is taken to belong to.  `cp` is taken to succeed.
-/

namespace Icflow.Collect

open Icflow.Foundation
open Icflow.Wrap
open Icflow.PinTool

/-- The ends of the names of the result files. -/
def icallSuffix : List Char := "_icall.json".toList

def ijumpSuffix : List Char := "_ijump.json".toList

/-- The kind of a result file by its name: calls are `true`. -/
def resultKind (path : Path) : Option Bool :=
  if icallSuffix.isSuffixOf path then some true
  else if ijumpSuffix.isSuffixOf path then some false
  else none

/-- `find "$repository_dir/src" -type f \( -name '*_icall.json' -o -name '*_ijump.json' \)
-size +2c`. -/
def Collected (source : Path) (fs : FileSystem) (path : Path) : Prop :=
  inTree source path = true ∧ (resultKind path).isSome = true ∧
    ∃ content mode, fs path = some (.file content mode) ∧ 2 < content.length

/-- `${text%suffix}`. -/
def stripSuffix (suffix text : List Char) : List Char :=
  if suffix.isSuffixOf text then text.take (text.length - suffix.length) else text

/-- `${result%_icall.json}`, and of that `${binary%_ijump.json}`. -/
def baseOf (result : Path) : Path := stripSuffix ijumpSuffix (stripSuffix icallSuffix result)

/-- The content of the regular file that a path leads to. -/
def readRegular (fs : FileSystem) (path : Path) : Option (List Char) :=
  match lookup fs path with
  | some (.file content _) => some content
  | _ => none

/-- The binary that a result file is taken to belong to. -/
def binaryOf (fs : FileSystem) (result : Path) : Path :=
  let binary := baseOf result
  if ¬ isRegular fs binary ∧ ".orig".toList.isSuffixOf binary ∧ isRegular fs (stripOrig binary) then
    stripOrig binary
  else binary

/-- `${path#"$repository_dir"/}`. -/
def relativePath (repositoryDir path : Path) : Path :=
  if (repositoryDir ++ ['/']).isPrefixOf path then path.drop (repositoryDir.length + 1) else path

/-- `$package_output/artifacts/$relative`. -/
def destination (repositoryDir packageOutput path : Path) : Path :=
  packageOutput ++ "/artifacts/".toList ++ relativePath repositoryDir path

/-- A file that `cp` writes. -/
structure Copy where
  destination : Path
  content : List Char

/-- What one iteration copies. -/
structure Artifact where
  result : Copy
  binary : Option Copy

/-- One iteration of `collect_artifacts`. -/
def artifactOf (repositoryDir packageOutput : Path) (fs : FileSystem) (result : Path) :
    Option Artifact :=
  match readRegular fs result with
  | none => none
  | some text =>
      let binary := binaryOf fs result
      some
        { result := ⟨destination repositoryDir packageOutput result, text⟩
          binary := (readRegular fs binary).map fun bytes =>
            ⟨destination repositoryDir packageOutput binary, bytes⟩ }

/-! ## Names -/

theorem stripSuffix_append (stem suffix : List Char) : stripSuffix suffix (stem ++ suffix) = stem := by
  have hsuffix : suffix.isSuffixOf (stem ++ suffix) = true :=
    List.isSuffixOf_iff_suffix.mpr (List.suffix_append stem suffix)
  rw [stripSuffix, if_pos hsuffix, List.length_append, Nat.add_sub_cancel, List.take_left]

/-- Two suffixes of one text of the same length are equal. -/
theorem not_isSuffixOf_append {stem suffix other : List Char} (hlength : other.length ≤ suffix.length)
    (hother : other.isSuffixOf suffix = false) : other.isSuffixOf (stem ++ suffix) = false := by
  rw [← Bool.not_eq_true] at hother ⊢
  intro h
  apply hother
  rw [List.isSuffixOf_iff_suffix] at h ⊢
  exact List.suffix_of_suffix_length_le h (List.suffix_append stem suffix) hlength

theorem getLast?_of_isSuffixOf {suffix text : List Char} (hne : suffix ≠ [])
    (h : suffix.isSuffixOf text = true) : text.getLast? = suffix.getLast? := by
  obtain ⟨stem, rfl⟩ := List.isSuffixOf_iff_suffix.mp h
  exact List.getLast?_append_of_ne_nil stem hne

/-- A result name ends with `n`. -/
theorem getLast?_of_resultKind {path : Path} (h : (resultKind path).isSome = true) :
    path.getLast? = some 'n' := by
  unfold resultKind at h
  split at h
  · rename_i hicall
    rw [getLast?_of_isSuffixOf (by decide) hicall]
    decide
  · split at h
    · rename_i hijump
      rw [getLast?_of_isSuffixOf (by decide) hijump]
      decide
    · cases h

/-- A backup name ends with `g`. -/
theorem getLast?_orig (x : Path) : (orig x).getLast? = some 'g' := by
  rw [getLast?_of_isSuffixOf (by decide) (isSuffixOf_orig x)]
  decide

theorem ne_orig_of_resultKind {path : Path} (h : (resultKind path).isSome = true) (x : Path) :
    path ≠ orig x := by
  intro heq
  have hlast := getLast?_of_resultKind h
  rw [heq, getLast?_orig] at hlast
  exact absurd hlast (by decide)

theorem ne_temporaryWrapper_of_resultKind {path : Path} (h : (resultKind path).isSome = true)
    (pid : Nat) (x : Path) : path ≠ temporaryWrapper pid x := by
  intro heq
  have hlast := getLast?_of_resultKind h
  obtain ⟨digit, hdigit, hend⟩ := getLast?_temporaryWrapper pid x
  rw [heq, hend] at hlast
  have hdigits : ∀ v < 10, some (Nat.digitChar v) ≠ some 'n' := by decide
  exact hdigits digit hdigit hlast

/-- The path is joined from its parent and its name. -/
def IsCanonical (path : Path) : Prop := resultStem path = path

theorem resultPath_eq {original : Path} (hcanonical : IsCanonical original) (kind : Bool) :
    resultPath kind original = original ++ if kind then icallSuffix else ijumpSuffix := by
  unfold resultPath icallPath ijumpPath
  rw [hcanonical]
  cases kind <;> rfl

theorem resultKind_resultPath {original : Path} (hcanonical : IsCanonical original) (kind : Bool) :
    resultKind (resultPath kind original) = some kind := by
  rw [resultPath_eq hcanonical, resultKind]
  cases kind with
  | true =>
      have hsuffix : icallSuffix.isSuffixOf (original ++ icallSuffix) = true :=
        List.isSuffixOf_iff_suffix.mpr (List.suffix_append original icallSuffix)
      exact if_pos hsuffix
  | false =>
      have hicall : icallSuffix.isSuffixOf (original ++ ijumpSuffix) = false :=
        not_isSuffixOf_append (by decide) (by decide)
      have hijump : ijumpSuffix.isSuffixOf (original ++ ijumpSuffix) = true :=
        List.isSuffixOf_iff_suffix.mpr (List.suffix_append original ijumpSuffix)
      simp [hicall, hijump]

/-- The base of the result of a wrapped executable is its backup path. -/
theorem baseOf_resultPath {x : Path} (hcanonical : IsCanonical (orig x)) (kind : Bool) :
    baseOf (resultPath kind (orig x)) = orig x := by
  rw [resultPath_eq hcanonical, baseOf]
  cases kind with
  | true =>
      have hijump : ijumpSuffix.isSuffixOf (orig x) = false := by
        rw [← Bool.not_eq_true]
        intro h
        have hlast := getLast?_of_isSuffixOf (by decide) h
        rw [getLast?_orig] at hlast
        exact absurd hlast (by decide)
      simp only [if_true, stripSuffix_append]
      rw [stripSuffix, hijump]
      rfl
  | false =>
      have hicall : icallSuffix.isSuffixOf (orig x ++ ijumpSuffix) = false :=
        not_isSuffixOf_append (by decide) (by decide)
      rw [if_neg Bool.false_ne_true, stripSuffix.eq_def icallSuffix, hicall]
      exact stripSuffix_append _ _

end Icflow.Collect
