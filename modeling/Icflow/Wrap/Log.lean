import Icflow.Wrap.Overlay

set_option autoImplicit false

/-!
# The log of the wrapper script

Before the loop starts, the wrapper script makes its log, and the directories on the way to
it, where nothing was (`prepared_grown`).  An overlay of a tree becomes an overlay of a tree
that has grown by the same objects (`Overlay.grow`).
-/

namespace Icflow.Wrap

open Icflow.Foundation

/-- The directory of the tree, or a path below it. -/
def Within (root path : Path) : Prop := path = root ∨ inTree root path = true

instance (root path : Path) : Decidable (Within root path) :=
  inferInstanceAs (Decidable (path = root ∨ inTree root path = true))

/-- The places that making the log may fill. -/
def logPlaces (setup : Setup) (fs : FileSystem) : List Path :=
  ancestors setup.logPath ++ (resolve fs setup.logPath).toList

/-- The log and the directories on the way to it lie outside the tree or are there already. -/
def LogApart (root : Path) (setup : Setup) (fs : FileSystem) : Prop :=
  ∀ path ∈ logPlaces setup fs, Within root path → fs path ≠ none

/-- Neither is made at a name that the wrap loop is going to use. -/
def LogClear (host : Host) (setup : Setup) (root : Path) (fs : FileSystem) : Prop :=
  ∀ x, Wrappable host root fs x → fs (orig x) = none →
    orig x ∉ logPlaces setup fs ∧ temporaryWrapper setup.pid x ∉ logPlaces setup fs

/-- Directories and empty files have been added at some of the places where nothing was. -/
structure Grown (places : Set Path) (fs fs' : FileSystem) : Prop where
  kept : ∀ path, fs path ≠ none → fs' path = fs path
  added : ∀ path, fs path = none → fs' path ≠ none → path ∈ places ∧
    (fs' path = some .directory ∨ ∃ mode, fs' path = some (.file [] mode))

/-- The tree is what it was: the same paths, kinds, contents and modes. -/
def SameTree (root : Path) (fs fs' : FileSystem) : Prop :=
  ∀ path, Within root path → fs path = fs' path

section Growth

variable {places places' : Set Path} {fs fs' fs'' : FileSystem}

theorem Grown.refl (places : Set Path) (fs : FileSystem) : Grown places fs fs where
  kept := fun _ _ => rfl
  added := fun _ hnone hsome => absurd hnone hsome

theorem Grown.mono (h : Grown places fs fs')
    (hplaces : ∀ path ∈ places, fs path = none → path ∈ places') : Grown places' fs fs' where
  kept := h.kept
  added := by
    intro path hnone hsome
    obtain ⟨hplace, hnode⟩ := h.added path hnone hsome
    exact ⟨hplaces path hplace hnone, hnode⟩

theorem Grown.trans (h : Grown places fs fs') (h' : Grown places fs' fs'') :
    Grown places fs fs'' where
  kept := by
    intro path hsome
    have hkept := h.kept path hsome
    rw [h'.kept path (hkept ▸ hsome), hkept]
  added := by
    intro path hnone hsome
    by_cases hbetween : fs' path = none
    · exact h'.added path hbetween hsome
    · rw [h'.kept path hbetween]
      exact h.added path hnone hbetween

theorem grown_update {path : Path} (hfree : fs path = none) {node : Node}
    (hnode : node = .directory ∨ ∃ mode, node = .file [] mode) :
    Grown {path} fs (Function.update fs path (some node)) where
  kept := by
    intro other hother
    have hne : other ≠ path := fun heq => hother (heq ▸ hfree)
    exact Function.update_of_ne hne _ _
  added := by
    intro other hnone hsome
    by_cases heq : other = path
    · subst heq
      rw [Function.update_self]
      refine ⟨rfl, hnode.imp (congrArg some) ?_⟩
      rintro ⟨mode, hmode⟩
      exact ⟨mode, congrArg some hmode⟩
    · rw [Function.update_of_ne heq] at hsome
      exact absurd hnone hsome

/-- No link is added. -/
theorem Grown.links (h : Grown places fs fs') (path target : Path) :
    fs path = some (.symlink target) ↔ fs' path = some (.symlink target) := by
  by_cases hnone : fs path = none
  · constructor
    · intro hlink
      rw [hnone] at hlink
      cases hlink
    · intro hlink
      have hsome : fs' path ≠ none := by
        rw [hlink]
        exact Option.some_ne_none _
      rcases (h.added path hnone hsome).2 with hdirectory | ⟨mode, hfile⟩
      · rw [hlink] at hdirectory
        cases hdirectory
      · rw [hlink] at hfile
        cases hfile
  · rw [h.kept path hnone]

theorem Grown.resolve_eq (h : Grown places fs fs') : resolve fs' = resolve fs :=
  (resolve_congr h.links).symm

theorem Grown.of_some (h : Grown places fs fs') {path : Path} {node : Node}
    (hnode : fs path = some node) : fs' path = some node := by
  rw [h.kept path (hnode ▸ Option.some_ne_none node), hnode]

theorem Grown.isRegular_of (h : Grown places fs fs') {path : Path}
    (hregular : isRegular fs path = true) : isRegular fs' path = true := by
  unfold isRegular lookup at *
  rw [h.resolve_eq]
  cases hresolve : resolve fs path with
  | none =>
      rw [hresolve] at hregular
      cases hregular
  | some final =>
      rw [hresolve] at hregular
      simp only [Option.bind_some] at hregular ⊢
      cases hnode : fs final with
      | none =>
          rw [hnode] at hregular
          cases hregular
      | some node =>
          rw [h.of_some hnode]
          rw [hnode] at hregular
          exact hregular

/-! ## Making the log -/

theorem exec_mkdir_grown {umask : Umask} {path : Path}
    (hexec : Command.exec umask fs (.mkdir path) = some fs') : Grown {path} fs fs' := by
  simp only [Command.exec] at hexec
  split at hexec
  · rename_i hfree
    rw [← Option.some.inj hexec]
    exact grown_update hfree (Or.inl rfl)
  · split at hexec
    · rw [← Option.some.inj hexec]
      exact .refl _ fs
    · cases hexec

theorem exec_touch_grown {umask : Umask} {path : Path}
    (hexec : Command.exec umask fs (.touch path) = some fs') :
    Grown {target | resolve fs path = some target} fs fs' := by
  simp only [Command.exec] at hexec
  split at hexec
  · cases hexec
  · rename_i target hresolve
    split at hexec
    · rename_i hfree
      rw [← Option.some.inj hexec]
      apply (grown_update hfree (Or.inr ⟨umask.createMode, rfl⟩)).mono
      rintro other rfl _
      exact hresolve
    · rw [← Option.some.inj hexec]
      exact .refl _ fs

/-- Commands that each add objects at some places add them there together. -/
theorem runAll_grown {umask : Umask} {commands : List Command} {first : FileSystem}
    (hcommands : ∀ command ∈ commands, ∀ before after, resolve before = resolve first →
      command.exec umask before = some after → Grown places before after)
    (hfirst : resolve fs = resolve first) (hrun : runAll umask commands fs = some fs') :
    Grown places fs fs' := by
  induction commands generalizing fs with
  | nil =>
      obtain rfl : fs = fs' := Option.some.inj hrun
      exact .refl _ fs
  | cons command rest ih =>
      rw [runAll, List.foldlM_cons] at hrun
      obtain ⟨next, hexec, hrest⟩ := Option.bind_eq_some_iff.mp hrun
      obtain ⟨hhead, htail⟩ := List.forall_mem_cons.mp hcommands
      have hgrown := hhead fs next hfirst hexec
      exact hgrown.trans (ih htail (hgrown.resolve_eq.trans hfirst) hrest)

/-- While the log is made, the file system grows at the places of the log. -/
theorem prepared_grown {umask : Umask} {setup : Setup} {done rest : List Command}
    (hcommands : prepareLog setup = done ++ rest) (hrun : runAll umask done fs = some fs') :
    Grown {path | path ∈ logPlaces setup fs} fs fs' := by
  refine runAll_grown ?_ rfl hrun
  intro command hcommand before after hresolve hexec
  have hmem : command ∈ prepareLog setup := by
    rw [hcommands]
    exact List.mem_append_left _ hcommand
  rcases List.mem_append.mp hmem with hmkdir | htouch
  · obtain ⟨path, hpath, rfl⟩ := List.mem_map.mp hmkdir
    apply (exec_mkdir_grown hexec).mono
    rintro other rfl _
    exact List.mem_append_left _ hpath
  · obtain rfl := List.mem_singleton.mp htouch
    apply (exec_touch_grown hexec).mono
    intro target htarget _
    rw [Set.mem_ofPred_eq, hresolve] at htarget
    exact List.mem_append_right _ (Option.mem_toList.mpr htarget)

/-- The log is made outside the tree. -/
theorem LogApart.grown {umask : Umask} {root : Path} {setup : Setup} {done rest : List Command}
    (h : LogApart root setup fs) (hcommands : prepareLog setup = done ++ rest)
    (hrun : runAll umask done fs = some fs') : Grown {path | ¬ Within root path} fs fs' := by
  apply (prepared_grown hcommands hrun).mono
  intro path hplace hnone hwithin
  exact h path hplace hwithin hnone

end Growth

/-! ## What a tree has that has grown -/

section Tree

variable {host : Host} {root : Path} {places : Set Path} {T T' : FileSystem} {W : Set Path}
  {fs fs' : FileSystem}

theorem Grown.unmarked (h : Grown places T T') (hmarker : Unmarked root T) : Unmarked root T' := by
  intro path content mode hin hfile
  by_cases hnone : T path = none
  · have hsome : T' path ≠ none := hfile ▸ Option.some_ne_none _
    rcases (h.added path hnone hsome).2 with hdirectory | ⟨mode', hempty⟩
    · rw [hfile] at hdirectory
      cases hdirectory
    · rw [hfile] at hempty
      cases hempty
      decide
  · rw [h.kept path hnone] at hfile
    exact hmarker path content mode hin hfile

/-- What may be wrapped of a tree that has grown was there before: what is added is no ELF file. -/
theorem Grown.wrappable (hgrown : Grown places T T') {x : Path}
    (h : Wrappable host root T' x) : Wrappable host root T x := by
  obtain ⟨hin, hpkg, hname, content, mode, hfile, hmode, hdescribes⟩ := h
  refine ⟨hin, hpkg, hname, content, mode, ?_, hmode, hdescribes⟩
  by_contra hne
  have hnone : T x = none := by
    by_contra hsome
    rw [hgrown.kept x hsome] at hfile
    exact hne hfile
  have hsome : T' x ≠ none := hfile ▸ Option.some_ne_none _
  rcases (hgrown.added x hnone hsome).2 with hdirectory | ⟨mode', hempty⟩
  · rw [hfile] at hdirectory
    cases hdirectory
  · rw [hfile] at hempty
    cases hempty
    rw [describesExecutable, Bool.and_eq_true] at hdescribes
    have hmagic := host.elf_magic [] mode hdescribes.1
    cases hmagic

theorem Grown.preserved (h : Grown places T T') (hpreserved : Preserved T' fs) :
    Preserved T fs := by
  intro path content mode hfile
  exact hpreserved path content mode (h.of_some hfile)

/-- What is added outside the tree is not added to it. -/
theorem Grown.sameTree (h : Grown {path | ¬ Within root path} T T') : SameTree root T' T := by
  intro path hwithin
  by_cases hnone : T path = none
  · by_contra hne
    have hsome : T' path ≠ none := fun heq => hne (heq.trans hnone.symm)
    exact (h.added path hnone hsome).1 hwithin
  · exact h.kept path hnone

/-- When an overlay grows, it is an overlay of a tree that has grown alike. -/
theorem Overlay.grow (h : Overlay host root T W fs) (hgrown : Grown places fs fs') :
    ∃ T', Grown places T T' ∧ Overlay host root T' W fs' := by
  classical
  let T' : FileSystem := fun path => if fs path = none then fs' path else T path
  have hfree : ∀ path, fs path = none → T' path = fs' path := fun path hnone => if_pos hnone
  have hkept : ∀ path, fs path ≠ none → T' path = T path := fun path hsome => if_neg hsome
  have hwrapper : ∀ x ∈ W, fs x ≠ none := by
    intro x hx
    obtain ⟨content, mode, hfile, _⟩ := h.wrapper x hx
    exact hfile ▸ Option.some_ne_none _
  have hbackup : ∀ x ∈ W, fs (orig x) ≠ none := by
    intro x hx
    obtain ⟨_, _, _, content, mode, hfile, _⟩ := h.wrappable x hx
    rw [h.backup x hx, hfile]
    exact Option.some_ne_none _
  refine ⟨T', ⟨?_, ?_⟩, ⟨?_, ?_, ?_, ?_, ?_⟩⟩
  · intro path hsome
    exact hkept path fun hnone => hsome (h.free_of_free hnone)
  · intro path hnone hsome
    by_cases hfs : fs path = none
    · rw [hfree path hfs] at hsome ⊢
      exact hgrown.added path hfs hsome
    · rw [hkept path hfs] at hsome
      exact absurd hnone hsome
  · intro x hx
    rw [hgrown.kept x (hwrapper x hx)]
    exact h.wrapper x hx
  · intro x hx
    rw [hgrown.kept (orig x) (hbackup x hx), hkept x (hwrapper x hx)]
    exact h.backup x hx
  · intro path hpath hother
    have hsame := h.rest path hpath hother
    by_cases hfs : fs path = none
    · exact (hfree path hfs).symm
    · rw [hgrown.kept path hfs, hkept path hfs, hsame]
  · intro x hx
    obtain ⟨hin, hpkg, hname, content, mode, hfile, hexecutable⟩ := h.wrappable x hx
    refine ⟨hin, hpkg, hname, content, mode, ?_, hexecutable⟩
    rw [hkept x (hwrapper x hx)]
    exact hfile
  · intro x hx
    rw [hkept (orig x) (hbackup x hx)]
    exact h.free x hx

theorem Grown.isRegular_iff (h : Grown places T T') {path : Path}
    (hpath : T path = none → T' path = none)
    (hknown : T path = none ∨ isRegular T path = true ∨ lookup T path = some .directory) :
    isRegular T' path = isRegular T path := by
  rcases hknown with hnone | hregular | hdirectory
  · rw [isRegular_of_free hnone, isRegular_of_free (hpath hnone)]
  · rw [hregular, h.isRegular_of hregular]
  · have hafter : lookup T' path = some .directory := by
      unfold lookup at *
      rw [h.resolve_eq]
      obtain ⟨final, hresolve, hnode⟩ := Option.bind_eq_some_iff.mp hdirectory
      rw [hresolve, Option.bind_some, h.of_some hnode]
    rw [isRegular, isRegular, hdirectory, hafter]

/-- A name of the loop that is free stays free while the log is made. -/
theorem LogClear.free {setup : Setup} {x : Path} (hlog : LogClear host setup root T)
    (h : Grown {path | path ∈ logPlaces setup T} T T') (hx : Wrappable host root T x)
    (hnone : T (orig x) = none) :
    T' (orig x) = none ∧
      (T (temporaryWrapper setup.pid x) = none → T' (temporaryWrapper setup.pid x) = none) := by
  obtain ⟨horig, htemporary⟩ := hlog x hx hnone
  refine ⟨?_, ?_⟩
  · by_contra hsome
    exact horig (h.added _ hnone hsome).1
  · intro hfree
    by_contra hsome
    exact htemporary (h.added _ hfree hsome).1

/-- Making the log leaves the names free. -/
theorem NamesFree.grow {setup : Setup} (hnames : NamesFree host setup root T)
    (hlog : LogClear host setup root T) (h : Grown {path | path ∈ logPlaces setup T} T T') :
    NamesFree host setup root T' where
  backup := by
    intro x hx
    have hbefore := h.wrappable hx
    rcases hnames.backup x hbefore with hnone | hregular | ⟨directory, hresolve, hdirectory, hinside⟩
    · exact Or.inl (hlog.free h hbefore hnone).1
    · exact Or.inr (Or.inl (h.isRegular_of hregular))
    · refine Or.inr (Or.inr ⟨directory, ?_, h.of_some hdirectory, h.of_some hinside⟩)
      rw [h.resolve_eq, hresolve]
  temporary := by
    intro x hx hnone
    have hbefore := h.wrappable hx
    have hfree : T (orig x) = none := by
      by_contra hsome
      rw [h.kept _ hsome] at hnone
      exact hsome hnone
    exact (hlog.free h hbefore hfree).2 (hnames.temporary x hbefore hfree)

/-- A log outside the tree is made at no name of the loop. -/
theorem LogApart.logClear {setup : Setup} (h : LogApart root setup T)
    (hnames : NamesFree host setup root T) : LogClear host setup root T := by
  intro x hx hnone
  refine ⟨?_, ?_⟩
  · intro hplace
    exact h _ hplace (Or.inr (inTree_orig hx.1)) hnone
  · intro hplace
    exact h _ hplace (Or.inr (inTree_temporaryWrapper hx.1)) (hnames.temporary x hx hnone)

/-- A file that may be wrapped is in the tree, and so is its backup path. -/
theorem Grown.wrappable_iff (h : Grown {path | ¬ Within root path} T T') {x : Path} :
    Wrappable host root T' x ↔ Wrappable host root T x := by
  unfold Wrappable
  apply and_congr_right
  intro hin
  rw [h.sameTree x (Or.inr hin)]

/-- Names that do not collide do not collide with what is added outside the tree. -/
theorem CollisionFree.grow (hfree : CollisionFree host root T)
    (h : Grown {path | ¬ Within root path} T T') : CollisionFree host root T' where
  backup := by
    intro x hx
    have hwrappable := h.wrappable_iff.mp hx
    rcases hfree.backup x hwrappable with hnone | hregular | ⟨directory, hresolve, hdirectory, hinside⟩
    · left
      rw [h.sameTree (orig x) (Or.inr (inTree_orig hwrappable.1)), hnone]
    · exact Or.inr (Or.inl (h.isRegular_of hregular))
    · refine Or.inr (Or.inr ⟨directory, ?_, h.of_some hdirectory, h.of_some hinside⟩)
      rw [h.resolve_eq, hresolve]
  temporary := by
    intro x pid hx hnone
    have hwrappable := h.wrappable_iff.mp hx
    rw [h.sameTree (orig x) (Or.inr (inTree_orig hwrappable.1))] at hnone
    have hin : inTree root (temporaryWrapper pid x) = true := inTree_temporaryWrapper hwrappable.1
    rw [h.sameTree _ (Or.inr hin)]
    exact hfree.temporary x pid hwrappable hnone
  link := by
    intro y target content mode hlink hin hfile path hresolve
    rw [h.sameTree (orig y) (Or.inr hin)] at hfile
    rw [h.resolve_eq] at hresolve
    obtain ⟨hplain, hwrapped⟩ :=
      hfree.link y target content mode ((h.links y target).mpr hlink) hin hfile path hresolve
    refine ⟨?_, ?_⟩
    · intro content' mode' hnode
      by_cases hnone : T path = none
      · have hsome : T' path ≠ none := hnode ▸ Option.some_ne_none _
        rcases (h.added path hnone hsome).2 with hdirectory | ⟨mode'', hempty⟩
        · rw [hnode] at hdirectory
          cases hdirectory
        · rw [hnode] at hempty
          cases hempty
          decide
      · rw [h.kept path hnone] at hnode
        exact hplain content' mode' hnode
    · rintro ⟨hwrappable, hnone⟩
      have hbefore := h.wrappable_iff.mp hwrappable
      rw [h.sameTree (orig path) (Or.inr (inTree_orig hbefore.1))] at hnone
      exact hwrapped ⟨hbefore, hnone⟩

end Tree

end Icflow.Wrap
