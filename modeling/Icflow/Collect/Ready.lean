import Icflow.Collect.ToolRun

set_option autoImplicit false

/-!
# Trees whose results can be collected

`Ready` is what the instrumented tests of a package take for granted about its tree.
Saving a result file keeps a tree ready and an overlay an overlay (`Ready.update`,
`Ready.overlay_update`), so that wrapping, running and restoring can go on from there.
-/

namespace Icflow.Collect

open Icflow.Foundation
open Icflow.Wrap
open Icflow.PinTool

/-- What the instrumented tests take for granted about the package's tree. -/
structure Ready (host : Host) (root : Path) (T : FileSystem) : Prop where
  marker : Unmarked root T
  free : CollisionFree host root T
  /-- `find` prints no path with an empty component. -/
  canonical : ∀ x, Wrappable host root T x → IsCanonical (orig x)
  /-- No executable has the name of a result file. -/
  names : ∀ x, Wrappable host root T x → resultKind x = none
  /-- The results of an executable go to a free path or to a regular file. -/
  plain : ∀ x kind, Wrappable host root T x → Plain T (resultPath kind (orig x))

section Update

variable {host : Host} {root : Path} {T fs : FileSystem} {path : Path} {text : List Char}
  {mode : Nat} {allowed : Set (ADDRINT × ADDRINT)}

/-- The tree with a result file saved. -/
def withResult (T : FileSystem) (path : Path) (text : List Char) (mode : Nat) : FileSystem :=
  Function.update T path (some (.file text mode))

theorem withResult_self (T : FileSystem) (path : Path) (text : List Char) (mode : Nat) :
    withResult T path text mode path = some (.file text mode) :=
  Function.update_self _ _ _

theorem withResult_of_ne {other : Path} (hne : other ≠ path) :
    withResult T path text mode other = T other :=
  Function.update_of_ne hne _ _

theorem withResult_orig (hkind : (resultKind path).isSome = true) (x : Path) :
    withResult T path text mode (orig x) = T (orig x) :=
  withResult_of_ne (ne_orig_of_resultKind hkind x).symm

theorem resolve_withResult (text : List Char) (mode : Nat) (hplain : Plain T path) :
    resolve (withResult T path text mode) = resolve T := by
  symm
  apply resolve_congr
  intro other target
  by_cases hother : other = path
  · rw [hother, withResult_self]
    rcases hplain with hnone | ⟨content, mode', hfile⟩
    · rw [hnone]
      constructor <;> intro h <;> cases h
    · rw [hfile]
      constructor <;> intro h <;> cases h
  · rw [withResult_of_ne hother]

/-- A result file is no executable. -/
theorem wrappable_withResult (mode : Nat) (htext : ResultText allowed text)
    (hnames : ∀ x, Wrappable host root T x → resultKind x = none)
    (hkind : (resultKind path).isSome = true) (x : Path) :
    Wrappable host root (withResult T path text mode) x ↔ Wrappable host root T x := by
  constructor
  · rintro ⟨hin, hpkg, hname, content, mode', hfile, hmode, helf⟩
    by_cases hx : x = path
    · rw [hx, withResult_self] at hfile
      obtain ⟨rfl, rfl⟩ := Node.file.inj (Option.some.inj hfile)
      rw [describesExecutable, Bool.and_eq_true] at helf
      exact absurd (host.elf_magic text mode helf.1) htext.noElf
    · rw [withResult_of_ne hx] at hfile
      exact ⟨hin, hpkg, hname, content, mode', hfile, hmode, helf⟩
  · intro hwrappable
    have hx : x ≠ path := by
      rintro rfl
      rw [hnames x hwrappable] at hkind
      cases hkind
    obtain ⟨hin, hpkg, hname, content, mode', hfile, hmode, helf⟩ := hwrappable
    exact ⟨hin, hpkg, hname, content, mode', (withResult_of_ne hx).trans hfile, hmode, helf⟩

theorem isRegular_withResult (hplain : Plain T path) {other : Path}
    (h : isRegular T other = true) : isRegular (withResult T path text mode) other = true := by
  unfold isRegular lookup at *
  rw [resolve_withResult text mode hplain]
  cases hresolve : resolve T other with
  | none =>
      rw [hresolve] at h
      cases h
  | some final =>
      rw [hresolve, Option.bind_some] at h
      rw [Option.bind_some]
      by_cases hfinal : final = path
      · rw [hfinal, withResult_self]
      · rw [withResult_of_ne hfinal]
        exact h

theorem directory_withResult (hplain : Plain T path) {other : Path}
    (h : T other = some .directory) : withResult T path text mode other = some .directory := by
  have hother : other ≠ path := by
    rintro rfl
    rcases hplain with hnone | ⟨content, mode', hfile⟩
    · rw [hnone] at h
      cases h
    · rw [hfile] at h
      cases h
  rw [withResult_of_ne hother]
  exact h

theorem unmarked_withResult (htext : ResultText allowed text) (hmarker : Unmarked root T) :
    Unmarked root (withResult T path text mode) := by
  intro other content mode' hin hfile
  by_cases hother : other = path
  · rw [hother, withResult_self] at hfile
    obtain ⟨rfl, _⟩ := Node.file.inj (Option.some.inj hfile)
    exact htext.unmarked
  · rw [withResult_of_ne hother] at hfile
    exact hmarker other content mode' hin hfile

theorem Ready.collisionFree_update (h : Ready host root T) (hkind : (resultKind path).isSome = true)
    (hplain : Plain T path) (htext : ResultText allowed text) :
    CollisionFree host root (withResult T path text mode) := by
  have hwrappable := wrappable_withResult mode htext h.names hkind
  have hresolve := resolve_withResult text mode hplain
  refine ⟨?_, ?_, ?_⟩
  · intro x hx
    rw [withResult_orig hkind]
    rcases h.free.backup x ((hwrappable x).mp hx) with hnone | hregular | hrefused
    · exact Or.inl hnone
    · exact Or.inr (Or.inl (isRegular_withResult hplain hregular))
    · obtain ⟨directory, hlink, hdirectory, hinside⟩ := hrefused
      refine Or.inr (Or.inr ⟨directory, ?_, directory_withResult hplain hdirectory,
        directory_withResult hplain hinside⟩)
      rw [hresolve]
      exact hlink
  · intro x pid hx horig
    rw [withResult_orig hkind] at horig
    rw [withResult_of_ne (ne_temporaryWrapper_of_resultKind hkind pid x).symm]
    exact h.free.temporary x pid ((hwrappable x).mp hx) horig
  · intro y target content mode' hlink hin hbackup final hfinal
    have hy : y ≠ path := by
      rintro rfl
      rw [withResult_self] at hlink
      cases hlink
    rw [withResult_of_ne hy] at hlink
    rw [withResult_orig hkind] at hbackup
    rw [hresolve] at hfinal
    obtain ⟨hplainFinal, hwrapped⟩ :=
      h.free.link y target content mode' hlink hin hbackup final hfinal
    refine ⟨?_, ?_⟩
    · intro content' mode'' hfile
      by_cases heq : final = path
      · rw [heq, withResult_self] at hfile
        obtain ⟨rfl, _⟩ := Node.file.inj (Option.some.inj hfile)
        exact htext.unmarked
      · rw [withResult_of_ne heq] at hfile
        exact hplainFinal content' mode'' hfile
    · rintro ⟨hx, horig⟩
      rw [withResult_orig hkind] at horig
      exact hwrapped ⟨(hwrappable final).mp hx, horig⟩

/-- Saving a result keeps the tree ready. -/
theorem Ready.update (h : Ready host root T) (hkind : (resultKind path).isSome = true)
    (hplain : Plain T path) (htext : ResultText allowed text) :
    Ready host root (withResult T path text mode) := by
  have hwrappable := wrappable_withResult mode htext h.names hkind
  refine ⟨unmarked_withResult htext h.marker, h.collisionFree_update hkind hplain htext, ?_, ?_, ?_⟩
  · intro x hx
    exact h.canonical x ((hwrappable x).mp hx)
  · intro x hx
    exact h.names x ((hwrappable x).mp hx)
  · intro x kind hx
    by_cases heq : resultPath kind (orig x) = path
    · rw [heq]
      exact Or.inr ⟨text, mode, withResult_self _ _ _ _⟩
    · unfold Plain
      rw [withResult_of_ne heq]
      exact h.plain x kind ((hwrappable x).mp hx)

/-- Saving a result is the same change to a tree and to its overlays. -/
theorem Ready.overlay_update {W : Set Path} (h : Ready host root T)
    (hoverlay : Overlay host root T W fs) (hkind : (resultKind path).isSome = true)
    (htext : ResultText allowed text) :
    Overlay host root (withResult T path text mode) W (withResult fs path text mode) := by
  have hwrappable := wrappable_withResult mode htext h.names hkind
  have hne : ∀ x ∈ W, x ≠ path := by
    rintro x hx rfl
    rw [h.names x (hoverlay.wrappable x hx)] at hkind
    cases hkind
  refine ⟨?_, ?_, ?_, ?_, ?_⟩
  · intro x hx
    rw [withResult_of_ne (hne x hx)]
    exact hoverlay.wrapper x hx
  · intro x hx
    rw [withResult_orig hkind, withResult_of_ne (hne x hx)]
    exact hoverlay.backup x hx
  · intro other hW hbackup
    by_cases hother : other = path
    · rw [hother, withResult_self, withResult_self]
    · rw [withResult_of_ne hother, withResult_of_ne hother]
      exact hoverlay.rest other hW hbackup
  · intro x hx
    exact (hwrappable x).mpr (hoverlay.wrappable x hx)
  · intro x hx
    rw [withResult_orig hkind]
    exact hoverlay.free x hx

end Update

end Icflow.Collect
