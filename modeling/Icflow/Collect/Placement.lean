import Icflow.Collect.Attempts

set_option autoImplicit false

/-!
# Executables and results inside the two scripts

In every state of the scripts over a tree the executables of the tree are at hand and
the result files are those of the tree, so what is genuine in the tree is genuine there
(`Genuine.placed`), and back (`Genuine.of_overlay`).
-/

namespace Icflow.Collect

open Icflow.Foundation
open Icflow.Wrap
open Icflow.PinTool

section Placement

variable {host : Host} {root : Path} {T fs : FileSystem} {W : Set Path} {observed : Observations}

/-- The files of the tree are at their paths or at backup paths that were free, and the
result files are those of the tree. -/
structure Placed (T fs : FileSystem) : Prop where
  backup : ∀ x content mode, T (orig x) = some (.file content mode) → fs (orig x) = T (orig x)
  vacant : ∀ x, T (orig x) = none → fs (orig x) = none ∨ fs (orig x) = T x
  kept : Preserved T fs
  result : ∀ path content mode, (resultKind path).isSome = true →
    fs path = some (.file content mode) →
      T path = some (.file content mode) ∨ content.head? = some '#'

theorem HasElf.placed (hplaced : Placed T fs) {original : Path} {bytes : List Char}
    (h : HasElf T original bytes) : HasElf fs original bytes := by
  obtain ⟨x, mode, horiginal, hname, hkind, hfile⟩ := h
  refine ⟨x, mode, horiginal, hname, hkind, ?_⟩
  rcases hfile with hbackup | ⟨hnone, hself⟩
  · exact Or.inl ((hplaced.backup x bytes mode hbackup).trans hbackup)
  · rcases hplaced.vacant x hnone with hfree | hmoved
    · rcases hplaced.kept x bytes mode hself with hsame | hmoved
      · exact Or.inr ⟨hfree, hsame⟩
      · exact Or.inl hmoved
    · exact Or.inl (hmoved.trans hself)

theorem Genuine.placed (h : Genuine T observed) (hplaced : Placed T fs) : Genuine fs observed := by
  intro path kind content mode hkind hfile edge hedge
  have hsome : (resultKind path).isSome = true := by
    rw [hkind]
    rfl
  rcases hplaced.result path content mode hsome hfile with hsame | hscript
  · obtain ⟨bytes, helf, hobserved⟩ := h path kind content mode hkind hsame edge hedge
    exact ⟨bytes, helf.placed hplaced, hobserved⟩
  · rw [pairsOf_script hscript] at hedge
    exact hedge.elim

theorem placed_overlay (h : Overlay host root T W fs) : Placed T fs where
  backup := by
    intro x content mode hfile
    rcases h.cases (orig x) with hW | ⟨y, hy, horig⟩ | hsame
    · exact absurd rfl ((h.wrappable _ hW).ne_orig x)
    · rw [horig, h.free y hy] at hfile
      cases hfile
    · exact hsame
  vacant := by
    intro x hnone
    rcases h.cases (orig x) with hW | ⟨y, hy, horig⟩ | hsame
    · exact absurd rfl ((h.wrappable _ hW).ne_orig x)
    · right
      rw [orig_injective horig]
      exact h.backup y hy
    · exact Or.inl (hsame.trans hnone)
  kept := h.preserved
  result := by
    intro path content mode hkind hfile
    rcases h.cases path with hW | ⟨y, _, horig⟩ | hsame
    · obtain ⟨content', mode', hwrapper, _, hhash⟩ := h.wrapper path hW
      rw [hfile] at hwrapper
      obtain ⟨rfl, _⟩ := Node.file.inj (Option.some.inj hwrapper)
      exact Or.inr hhash
    · exact absurd horig (ne_orig_of_resultKind hkind y)
    · exact Or.inl (hsame ▸ hfile)

/-- Half-way through wrapping a file. -/
theorem placed_midway {setup : Setup} {x : Path} {content : List Char} {mode : Nat}
    {g : FileSystem} (h : Wrapping host setup root T W fs x content mode)
    (hready : Ready host root T) (hg : Midway T fs x (temporaryWrapper setup.pid x) g) :
    Placed T g where
  backup := by
    intro y content' mode' hfile
    have hy : orig y ≠ orig x := by
      intro heq
      rw [heq, h.free] at hfile
      cases hfile
    rw [hg.rest (orig y) (h.wrappable.ne_orig y).symm hy (temporaryWrapper_ne_orig setup.pid x y).symm]
    exact (placed_overlay h.overlay).backup y content' mode' hfile
  vacant := by
    intro y hnone
    by_cases hy : y = x
    · rw [hy]
      exact Or.inr hg.saved
    · rw [hg.rest (orig y) (h.wrappable.ne_orig y).symm (fun heq => hy (orig_injective heq))
        (temporaryWrapper_ne_orig setup.pid x y).symm]
      exact (placed_overlay h.overlay).vacant y hnone
  kept := (h.midway_properties hready.marker hg).1
  result := by
    intro path content' mode' hkind hfile
    have hx : path ≠ x := by
      rintro rfl
      rw [hg.gone] at hfile
      cases hfile
    rw [hg.rest path hx (ne_orig_of_resultKind hkind x)
      (ne_temporaryWrapper_of_resultKind hkind setup.pid x)] at hfile
    exact (placed_overlay h.overlay).result path content' mode' hkind hfile

theorem placed_wrapProgress {setup : Setup} {pending : List Command} (hready : Ready host root T)
    (h : WrapProgress host setup root T fs pending) : Placed T fs := by
  cases h with
  | idle W _ h => exact placed_overlay h
  | refused W _ x rest h _ _ => exact placed_overlay h
  | ready W _ x content mode h => exact placed_overlay h.overlay
  | moved W fs x content mode h =>
      exact placed_midway h hready (h.midway_moved (temporaryWrapper setup.pid x))
  | written W fs x content mode h => exact placed_midway h hready (h.midway_temporary _)
  | executable W fs x content mode h =>
      exact placed_midway h hready (h.midway_temporary _)

/-- While a wrapper is away. -/
theorem placed_removed {x : Path} (h : Overlay host root T W fs) (hready : Ready host root T)
    (hx : x ∈ W) : Placed T (Function.update fs x none) where
  backup := by
    intro y content mode hfile
    rw [Function.update_of_ne ((h.wrappable x hx).ne_orig y).symm]
    exact (placed_overlay h).backup y content mode hfile
  vacant := by
    intro y hnone
    rw [Function.update_of_ne ((h.wrappable x hx).ne_orig y).symm]
    exact (placed_overlay h).vacant y hnone
  kept := (h.properties_removed hready.marker hx).1
  result := by
    intro path content mode hkind hfile
    have hne : path ≠ x := by
      rintro rfl
      rw [Function.update_self] at hfile
      cases hfile
    rw [Function.update_of_ne hne] at hfile
    exact (placed_overlay h).result path content mode hkind hfile

theorem placed_restoreProgress {pending : List Command} (hready : Ready host root T)
    (h : RestoreProgress host root T W fs pending) : Placed T fs := by
  cases h with
  | idle _ h => exact placed_overlay h
  | ready _ x h _ => exact placed_overlay h
  | removed fs x h hx => exact placed_removed h hready hx

/-- What is genuine in an overlay is genuine in the tree itself. -/
theorem Genuine.of_overlay (h : Overlay host root T W fs) (hready : Ready host root T)
    (hgenuine : Genuine fs observed) : Genuine T observed := by
  intro path kind content mode hkind hfile edge hedge
  have hsome : (resultKind path).isSome = true := by
    rw [hkind]
    rfl
  have hW : path ∉ W := by
    intro hW
    rw [hready.names path (h.wrappable path hW)] at hkind
    cases hkind
  have hsame := h.rest path hW fun x _ => ne_orig_of_resultKind hsome x
  obtain ⟨bytes, helf, hobserved⟩ :=
    hgenuine path kind content mode hkind (hsame.trans hfile) edge hedge
  refine ⟨bytes, ?_, hobserved⟩
  obtain ⟨x, mode', horiginal, hname, hxkind, hbytes⟩ := helf
  refine ⟨x, mode', horiginal, hname, hxkind, ?_⟩
  rcases h.cases (orig x) with hx | ⟨y, hy, horig⟩ | hbackup
  · exact absurd rfl ((h.wrappable _ hx).ne_orig x)
  · -- the executable is wrapped, so its bytes are at the backup path
    obtain rfl := orig_injective horig
    obtain ⟨_, _, _, content', mode'', htree, _⟩ := h.wrappable x hy
    rw [h.backup x hy] at hbytes
    rcases hbytes with hmoved | ⟨hnone, _⟩
    · exact Or.inr ⟨h.free x hy, hmoved⟩
    · rw [htree] at hnone
      cases hnone
  · rw [hbackup] at hbytes
    rcases hbytes with hfound | ⟨hnone, hself⟩
    · exact Or.inl hfound
    · refine Or.inr ⟨hnone, ?_⟩
      rcases h.cases x with hx | ⟨y, _, rfl⟩ | hsame
      · obtain ⟨_, _, _, content', mode'', htree, _⟩ := h.wrappable x hx
        rw [h.backup x hx, hnone, htree] at hbackup
        cases hbackup
      · rw [isSuffixOf_orig] at hname
        cases hname
      · rw [← hsame]
        exact hself

end Placement

end Icflow.Collect
