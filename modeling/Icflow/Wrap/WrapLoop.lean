import Icflow.Wrap.Overlay

set_option autoImplicit false

/-!
# The wrap loop

`WrapProgress` lists the states between two commands of the loop, as changes of an
overlay.  Every step of the finder and of the loop keeps it (`WrapInvariant.step`), so
that over a collision-free tree nothing is lost.
-/

namespace Icflow.Wrap

open Icflow.Foundation

section Progress

variable {host : Host} {setup : Setup} {root : Path} {T : FileSystem} {W : Set Path}
  {fs : FileSystem}

/-! ## One file being wrapped -/

/-- The loop is about to wrap `x`. -/
structure Wrapping (host : Host) (setup : Setup) (root : Path) (T : FileSystem) (W : Set Path)
    (fs : FileSystem) (x : Path) (content : List Char) (mode : Nat) : Prop where
  overlay : Overlay host root T W fs
  wrappable : Wrappable host root T x
  fresh : x ∉ W
  free : T (orig x) = none
  temporary : T (temporaryWrapper setup.pid x) = none
  file : T x = some (.file content mode)

/-- `fs` with `x` moved to its backup path, and with something at the temporary one. -/
structure Midway (T fs : FileSystem) (x temporary : Path) (g : FileSystem) : Prop where
  gone : g x = none
  saved : g (orig x) = T x
  rest : ∀ path, path ≠ x → path ≠ orig x → path ≠ temporary → g path = fs path

/-- The state after the first `mv`. -/
def movedAway (fs : FileSystem) (x : Path) (node : Node) : FileSystem :=
  Function.update (Function.update fs x none) (orig x) (some node)

/-- The states between two commands of the wrap loop, with the commands left. -/
inductive WrapProgress (host : Host) (setup : Setup) (root : Path) (T : FileSystem) :
    FileSystem → List Command → Prop where
  | idle (W : Set Path) (fs : FileSystem) (h : Overlay host root T W fs) :
      WrapProgress host setup root T fs []
  | refused (W : Set Path) (fs : FileSystem) (x : Path) (rest : List Command)
      (h : Overlay host root T W fs) (hwrappable : Wrappable host root T x)
      (hrefused : Refused T x) (hlength : rest.length = 3) :
      WrapProgress host setup root T fs (.mv x (orig x) :: rest)
  | ready (W : Set Path) (fs : FileSystem) (x : Path) (content : List Char) (mode : Nat)
      (h : Wrapping host setup root T W fs x content mode) :
      WrapProgress host setup root T fs
        [.mv x (orig x), .write (temporaryWrapper setup.pid x) (wrapperText host setup (orig x)),
          .chmodExecutable (temporaryWrapper setup.pid x), .mv (temporaryWrapper setup.pid x) x]
  | moved (W : Set Path) (fs : FileSystem) (x : Path) (content : List Char) (mode : Nat)
      (h : Wrapping host setup root T W fs x content mode) :
      WrapProgress host setup root T (movedAway fs x (.file content mode))
        [.write (temporaryWrapper setup.pid x) (wrapperText host setup (orig x)),
          .chmodExecutable (temporaryWrapper setup.pid x), .mv (temporaryWrapper setup.pid x) x]
  | written (W : Set Path) (fs : FileSystem) (x : Path) (content : List Char) (mode : Nat)
      (h : Wrapping host setup root T W fs x content mode) :
      WrapProgress host setup root T
        (Function.update (movedAway fs x (.file content mode)) (temporaryWrapper setup.pid x)
          (some (.file (wrapperText host setup (orig x)) host.umask.createMode)))
        [.chmodExecutable (temporaryWrapper setup.pid x), .mv (temporaryWrapper setup.pid x) x]
  | executable (W : Set Path) (fs : FileSystem) (x : Path) (content : List Char) (mode : Nat)
      (h : Wrapping host setup root T W fs x content mode) :
      WrapProgress host setup root T
        (Function.update (movedAway fs x (.file content mode)) (temporaryWrapper setup.pid x)
          (some (.file (wrapperText host setup (orig x))
            (host.umask.addExecute host.umask.createMode))))
        [.mv (temporaryWrapper setup.pid x) x]

variable {x : Path} {content : List Char} {mode : Nat}

theorem Wrapping.at_self (h : Wrapping host setup root T W fs x content mode) :
    fs x = some (.file content mode) := by
  rw [h.overlay.rest x h.fresh fun y _ => h.wrappable.ne_orig y]
  exact h.file

theorem Wrapping.at_orig (h : Wrapping host setup root T W fs x content mode) : fs (orig x) = none := by
  have hW : orig x ∉ W := fun hx => (h.overlay.wrappable _ hx).ne_orig x rfl
  have hother : ∀ y ∈ W, orig x ≠ orig y := by
    intro y hy heq
    exact h.fresh (orig_injective heq ▸ hy)
  rw [h.overlay.rest (orig x) hW hother]
  exact h.free

theorem Wrapping.at_temporary (h : Wrapping host setup root T W fs x content mode) :
    fs (temporaryWrapper setup.pid x) = none := by
  have hnone := h.temporary
  rcases h.overlay.cases (temporaryWrapper setup.pid x) with hW | ⟨y, _, horig⟩ | hsame
  · obtain ⟨_, _, _, _, _, hfile, _⟩ := h.overlay.wrappable _ hW
    rw [hnone] at hfile
    cases hfile
  · exact absurd horig (temporaryWrapper_ne_orig setup.pid x y)
  · rw [hsame]
    exact hnone

theorem movedAway_temporary (fs : FileSystem) (x : Path) (node : Node) (pid : Nat) :
    movedAway fs x node (temporaryWrapper pid x) = fs (temporaryWrapper pid x) := by
  rw [movedAway, Function.update_of_ne (temporaryWrapper_ne_orig pid x x),
    Function.update_of_ne (temporaryWrapper_ne_self pid x)]

theorem movedAway_self (fs : FileSystem) (x : Path) (node : Node) :
    movedAway fs x node x = none := by
  rw [movedAway, Function.update_of_ne (orig_ne_self x).symm, Function.update_self]

theorem Wrapping.midway_moved (h : Wrapping host setup root T W fs x content mode) (temporary : Path) :
    Midway T fs x temporary (movedAway fs x (.file content mode)) where
  gone := movedAway_self fs x _
  saved := by rw [movedAway, Function.update_self, h.file]
  rest := by
    intro path hx horig _
    rw [movedAway, Function.update_of_ne horig, Function.update_of_ne hx]

theorem Wrapping.midway_temporary (h : Wrapping host setup root T W fs x content mode)
    (node : Option Node) :
    Midway T fs x (temporaryWrapper setup.pid x)
      (Function.update (movedAway fs x (.file content mode)) (temporaryWrapper setup.pid x)
        node) where
  gone := by
    rw [Function.update_of_ne (temporaryWrapper_ne_self setup.pid x).symm]
    exact movedAway_self fs x _
  saved := by
    rw [Function.update_of_ne (temporaryWrapper_ne_orig setup.pid x x).symm, movedAway,
      Function.update_self, h.file]
  rest := by
    intro path hx horig htemporary
    rw [Function.update_of_ne htemporary, movedAway, Function.update_of_ne horig,
      Function.update_of_ne hx]

/-- Putting the wrapper in place ends the iteration with one more wrapped file. -/
theorem Wrapping.overlay_insert (h : Wrapping host setup root T W fs x content mode)
    (node : Node) (hnode : IsWrapper (some node)) :
    Overlay host root T (insert x W)
      (Function.update
        (Function.update
          (Function.update (movedAway fs x (.file content mode)) (temporaryWrapper setup.pid x)
            (some node)) (temporaryWrapper setup.pid x) none) x (some node)) := by
  have htemporary := h.at_temporary
  -- at every other path the state is that of `fs`
  have hrest : ∀ path, path ≠ x → path ≠ orig x →
      (Function.update
        (Function.update
          (Function.update (movedAway fs x (.file content mode)) (temporaryWrapper setup.pid x)
            (some node)) (temporaryWrapper setup.pid x) none) x (some node)) path = fs path := by
    intro path hx horig
    rw [Function.update_of_ne hx, Function.update_idem]
    by_cases htemp : path = temporaryWrapper setup.pid x
    · rw [htemp, Function.update_self, htemporary]
    · rw [Function.update_of_ne htemp, movedAway, Function.update_of_ne horig,
        Function.update_of_ne hx]
  have horig : (Function.update
        (Function.update
          (Function.update (movedAway fs x (.file content mode)) (temporaryWrapper setup.pid x)
            (some node)) (temporaryWrapper setup.pid x) none) x (some node)) (orig x) = T x := by
    rw [Function.update_of_ne (orig_ne_self x), Function.update_idem,
      Function.update_of_ne (temporaryWrapper_ne_orig setup.pid x x).symm, movedAway,
      Function.update_self, h.file]
  refine ⟨?_, ?_, ?_, ?_, ?_⟩
  · rintro y (rfl | hy)
    · rw [Function.update_self]
      exact hnode
    · have hyx : y ≠ x := fun heq => h.fresh (heq ▸ hy)
      rw [hrest y hyx ((h.overlay.wrappable y hy).ne_orig x)]
      exact h.overlay.wrapper y hy
  · rintro y (rfl | hy)
    · exact horig
    · have hyx : y ≠ x := fun heq => h.fresh (heq ▸ hy)
      rw [hrest (orig y) (h.wrappable.ne_orig y).symm fun heq => hyx (orig_injective heq)]
      exact h.overlay.backup y hy
  · intro path hpath hbackup
    have hx : path ≠ x := fun heq => hpath (Or.inl heq)
    rw [hrest path hx (hbackup x (Or.inl rfl))]
    exact h.overlay.rest path (fun hW => hpath (Or.inr hW)) fun y hy => hbackup y (Or.inr hy)
  · rintro y (rfl | hy)
    · exact h.wrappable
    · exact h.overlay.wrappable y hy
  · rintro y (rfl | hy)
    · exact h.free
    · exact h.overlay.free y hy

/-- `mv` does not replace a directory. -/
theorem Overlay.exec_refused (h : Overlay host root T W fs) (hrefused : Refused T x) :
    Command.exec host.umask fs (.mv x (orig x)) = none := by
  obtain ⟨directory, hresolve, hdirectory, hinside⟩ := hrefused
  have htarget : moveTarget fs x (orig x) = directory ++ '/' :: filename x := by
    unfold moveTarget
    rw [h.resolve_eq, hresolve]
    simp only [h.directory_of hdirectory, if_true]
  simp only [Command.exec, htarget, h.directory_of hinside, if_true]
  split <;> rfl

/-- The first move of the wrap loop may be refused, and then nothing has changed; no other
command fails, and each leads to the next state. -/
theorem WrapProgress.exec {command : Command} {rest : List Command}
    (h : WrapProgress host setup root T fs (command :: rest)) :
    ((∃ x, Wrappable host root T x ∧ Refused T x) ∧ command.exec host.umask fs = none ∧
        wrapRecover setup command = [] ∧ WrapProgress host setup root T fs []) ∨
      ∃ fs', command.exec host.umask fs = some fs' ∧
        WrapProgress host setup root T fs' rest := by
  cases h with
  | refused W _ x _ h hwrappable hrefused _ =>
      exact Or.inl ⟨⟨x, hwrappable, hrefused⟩, h.exec_refused hrefused, rfl, .idle W fs h⟩
  | ready W _ x content mode h =>
      exact Or.inr
        ⟨_, exec_mv_free host.umask h.at_self h.at_orig, .moved W fs x content mode h⟩
  | moved W fs x content mode h =>
      have hnone : movedAway fs x (.file content mode) (temporaryWrapper setup.pid x) = none := by
        rw [movedAway_temporary]
        exact h.at_temporary
      exact Or.inr
        ⟨_, exec_write_free host.umask _ hnone, .written W fs x content mode h⟩
  | written W fs x content mode h =>
      have hexec := exec_chmod_file host.umask
        (Function.update_self (temporaryWrapper setup.pid x)
          (some (.file (wrapperText host setup (orig x)) host.umask.createMode))
          (movedAway fs x (.file content mode)))
      rw [Function.update_idem] at hexec
      exact Or.inr ⟨_, hexec, .executable W fs x content mode h⟩
  | executable W fs x content mode h =>
      have hgone : Function.update (movedAway fs x (.file content mode))
          (temporaryWrapper setup.pid x)
          (some (.file (wrapperText host setup (orig x))
            (host.umask.addExecute host.umask.createMode))) x = none := by
        rw [Function.update_of_ne (temporaryWrapper_ne_self setup.pid x).symm]
        exact movedAway_self fs x _
      have hexec := exec_mv_free host.umask
        (Function.update_self (temporaryWrapper setup.pid x)
          (some (.file (wrapperText host setup (orig x))
            (host.umask.addExecute host.umask.createMode)))
          (movedAway fs x (.file content mode))) hgone
      refine Or.inr ⟨_, hexec, .idle (insert x W) _ (h.overlay_insert _ ?_)⟩
      exact isWrapper_wrapperText host setup (orig x) _

/-! ## What the loop decides about a path -/

/-- What `find` can report while the loop runs. -/
def WrapReported (host : Host) (root : Path) (T : FileSystem) (path : Path) : Prop :=
  inTree root path = true ∧ containsText "/pkg/".toList path = false ∧
    ∀ content mode, T path = some (.file content mode) → host.executable mode = true

/-- The commands for a file that gets wrapped. -/
theorem wrapBody_eq (hname : skippedName x = false) (helf : isElfExecutable host fs x = true)
    (hbackup : isRegular fs (orig x) = false) :
    wrapBody host setup fs x =
      [.mv x (orig x), .write (temporaryWrapper setup.pid x) (wrapperText host setup (orig x)),
        .chmodExecutable (temporaryWrapper setup.pid x), .mv (temporaryWrapper setup.pid x) x] := by
  unfold wrapBody
  simp only [hname, helf, hbackup, not_true_eq_false, Bool.false_eq_true, if_false]

/-- The loop has commands for an ELF file under a name that it does not skip and without a
backup only. -/
theorem wrapBody_cases (host : Host) (setup : Setup) (fs : FileSystem) (x : Path) :
    wrapBody host setup fs x = [] ∨
      skippedName x = false ∧ isElfExecutable host fs x = true ∧ isRegular fs (orig x) = false := by
  unfold wrapBody
  split
  · exact Or.inl rfl
  · rename_i hname
    split
    · exact Or.inl rfl
    · rename_i helf
      simp only
      split
      · exact Or.inl rfl
      · rename_i hbackup
        rw [Bool.not_eq_true] at hname hbackup
        rw [not_not] at helf
        exact Or.inr ⟨hname, helf, hbackup⟩

/-- A wrapper is no ELF file and a backup has a skipped name, so a file that the loop is about
to wrap is one of the tree. -/
theorem Overlay.wrappable_of_isElfExecutable (h : Overlay host root T W fs)
    (hreported : WrapReported host root T x) (hname : skippedName x = false)
    (helf : isElfExecutable host fs x = true) : x ∉ W ∧ Wrappable host root T x := by
  have hfresh : x ∉ W := by
    intro hW
    obtain ⟨content, mode, hwrapper, _, hhash⟩ := h.wrapper x hW
    rw [isElfExecutable, hwrapper] at helf
    simp only [not_describesExecutable host hhash mode] at helf
    cases helf
  have hsame : fs x = T x := by
    rcases h.cases x with hW | ⟨y, _, rfl⟩ | hsame
    · exact absurd hW hfresh
    · rw [skippedName_orig] at hname
      cases hname
    · exact hsame
  rw [isElfExecutable, hsame] at helf
  split at helf
  · rename_i content mode hfile
    obtain ⟨hin, hpkg, hmode⟩ := hreported
    exact ⟨hfresh, hin, hpkg, hname, content, mode, hfile, hmode content mode hfile, helf⟩
  · cases helf

theorem Overlay.wrapBody_progress (h : Overlay host root T W fs)
    (hclear : WrapClear host setup (fs, x)) (hreported : WrapReported host root T x) :
    WrapProgress host setup root T fs (wrapBody host setup fs x) := by
  rcases wrapBody_cases host setup fs x with hnothing | ⟨hname, helf, hbackup⟩
  · rw [hnothing]
    exact .idle W fs h
  · obtain ⟨hfresh, hwrappable⟩ := h.wrappable_of_isElfExecutable hreported hname helf
    obtain ⟨_, _, _, content, mode, hfile, _⟩ := id hwrappable
    have hbody : wrapBody host setup fs x = _ := wrapBody_eq hname helf hbackup
    rw [hbody]
    rcases hclear with hnothing | ⟨horig, htemporary⟩ | hrefused
    · rw [hbody] at hnothing
      cases hnothing
    · exact .ready W fs x content mode
        ⟨h, hwrappable, hfresh, h.free_of_free horig, h.free_of_free htemporary, hfile⟩
    · exact .refused W fs x _ h hwrappable ((h.refused_iff x).mp hrefused) rfl

/-- Half-way through a file the permissions are those of the tree. -/
theorem Wrapping.midway_modesAgree (h : Wrapping host setup root T W fs x content mode)
    {g : FileSystem} (hg : Midway T fs x (temporaryWrapper setup.pid x) g) :
    ModesAgree host T g := by
  have htemporary := h.temporary
  intro path content₁ mode₁ content₂ mode₂ hfile hmode htree
  by_cases hx : path = x
  · rw [hx, hg.gone] at hfile
    cases hfile
  · have horig : path ≠ orig x := by
      rintro rfl
      rw [h.free] at htree
      cases htree
    have htemp : path ≠ temporaryWrapper setup.pid x := by
      rintro rfl
      rw [htemporary] at htree
      cases htree
    rw [hg.rest path hx horig htemp] at hfile
    exact h.overlay.modesAgree path content₁ mode₁ content₂ mode₂ hfile hmode htree

/-- Half-way through a file nothing is lost. -/
theorem Wrapping.midway_properties (h : Wrapping host setup root T W fs x content mode)
    (hmarker : Unmarked root T) {g : FileSystem}
    (hg : Midway T fs x (temporaryWrapper setup.pid x) g) :
    Preserved T g ∧ NoWrappedWrapper root g := by
  have htemporary := h.temporary
  refine ⟨?_, ?_⟩
  · intro path content' mode' hfile
    by_cases hx : path = x
    · subst hx
      exact Or.inr (hg.saved.trans hfile)
    · have horig : path ≠ orig x := by
        rintro rfl
        rw [h.free] at hfile
        cases hfile
      have htemp : path ≠ temporaryWrapper setup.pid x := by
        rintro rfl
        rw [htemporary] at hfile
        cases hfile
      rw [hg.rest path hx horig htemp, hg.rest (orig path) (h.wrappable.ne_orig path).symm
        (fun heq => hx (orig_injective heq)) (temporaryWrapper_ne_orig setup.pid x path).symm]
      exact h.overlay.preserved path content' mode' hfile
  · intro y content' mode' hin hfile
    by_cases hy : y = x
    · subst hy
      rw [hg.saved] at hfile
      exact hmarker y content' mode' hin hfile
    · rw [hg.rest (orig y) (h.wrappable.ne_orig y).symm (fun heq => hy (orig_injective heq))
        (temporaryWrapper_ne_orig setup.pid x y).symm] at hfile
      exact h.overlay.noWrappedWrapper hmarker y content' mode' hin hfile

theorem WrapProgress.modesAgree {pending : List Command}
    (h : WrapProgress host setup root T fs pending) : ModesAgree host T fs := by
  cases h with
  | idle W _ h => exact h.modesAgree
  | refused W _ x rest h _ _ _ => exact h.modesAgree
  | ready W _ x content mode h => exact h.overlay.modesAgree
  | moved W fs x content mode h =>
      exact h.midway_modesAgree (h.midway_moved (temporaryWrapper setup.pid x))
  | written W fs x content mode h =>
      exact h.midway_modesAgree (h.midway_temporary _)
  | executable W fs x content mode h =>
      exact h.midway_modesAgree (h.midway_temporary _)

theorem WrapProgress.properties {pending : List Command}
    (h : WrapProgress host setup root T fs pending) (hmarker : Unmarked root T) :
    Preserved T fs ∧ NoWrappedWrapper root fs := by
  cases h with
  | idle W _ h => exact ⟨h.preserved, h.noWrappedWrapper hmarker⟩
  | refused W _ x rest h _ _ _ => exact ⟨h.preserved, h.noWrappedWrapper hmarker⟩
  | ready W _ x content mode h =>
      exact ⟨h.overlay.preserved, h.overlay.noWrappedWrapper hmarker⟩
  | moved W fs x content mode h =>
      exact h.midway_properties hmarker (h.midway_moved (temporaryWrapper setup.pid x))
  | written W fs x content mode h =>
      exact h.midway_properties hmarker (h.midway_temporary _)
  | executable W fs x content mode h =>
      exact h.midway_properties hmarker (h.midway_temporary _)

/-- Between two files the loop leaves an overlay. -/
theorem WrapProgress.overlay (h : WrapProgress host setup root T fs []) :
    ∃ W, Overlay host root T W fs := by
  cases h with
  | idle W _ h => exact ⟨W, h⟩

/-! ## All states of an invocation -/

/-- What holds in every state of an invocation. -/
structure WrapInvariant (host : Host) (setup : Setup) (root : Path) (T : FileSystem)
    (s : FeedLoop.State FileSystem Path Command) : Prop where
  progress : WrapProgress host setup root T s.store s.pending
  reported : ∀ path ∈ s.queue, WrapReported host root T path

theorem WrapInvariant.start (h : Overlay host root T W fs) :
    WrapInvariant host setup root T (.start (wrapScript host setup root) fs) where
  progress := .idle W fs h
  reported := by
    intro path hpath
    cases hpath

theorem WrapInvariant.step {s s' : FeedLoop.State FileSystem Path Command}
    (hinv : WrapInvariant host setup root T s)
    (hstep : FeedLoop.Step (wrapScript host setup root) s s')
    (hclear : ∀ taken ∈ s'.taken, WrapClear host setup taken) :
    WrapInvariant host setup root T s' := by
  have hmodes := hinv.progress.modesAgree
  cases hstep with
  | report item _ hmatch =>
      refine ⟨hinv.progress, ?_⟩
      intro path hpath
      rcases List.mem_append.mp hpath with hold | hnew
      · exact hinv.reported path hold
      · obtain rfl := List.mem_singleton.mp hnew
        obtain ⟨hin, hpkg, content, mode, hfile, hmode⟩ := hmatch
        refine ⟨hin, hpkg, ?_⟩
        intro content' mode' htree
        exact hmodes path content mode content' mode' hfile hmode htree
  | finish _ _ => exact ⟨hinv.progress, hinv.reported⟩
  | take item rest hidle hqueue =>
      have hprogress := hinv.progress
      rw [hidle] at hprogress
      have hmem : item ∈ s.queue := hqueue ▸ List.mem_cons_self
      have hreported := hinv.reported item hmem
      refine ⟨?_, ?_⟩
      · obtain ⟨W, h⟩ := hprogress.overlay
        have hitem : WrapClear host setup (s.store, item) :=
          hclear _ (List.mem_append_right _ (List.mem_singleton_self _))
        exact h.wrapBody_progress hitem hreported
      · intro path hpath
        exact hinv.reported path (hqueue ▸ List.mem_cons_of_mem item hpath)
  | exec command rest store hpending hexec =>
      have hprogress := hinv.progress
      rw [hpending] at hprogress
      rcases hprogress.exec with ⟨_, hnone, _⟩ | ⟨store', hexec', hnext⟩
      · rw [show command.exec host.umask s.store = some store from hexec] at hnone
        cases hnone
      · obtain rfl : store' = store := Option.some.inj (hexec'.symm.trans hexec)
        exact ⟨hnext, hinv.reported⟩
  | fail command rest hpending hexec =>
      have hprogress := hinv.progress
      rw [hpending] at hprogress
      rcases hprogress.exec with ⟨_, _, hrecover, hidle⟩ | ⟨store', hexec', _⟩
      · refine ⟨?_, ?_⟩
        · rw [show (wrapScript host setup root).recover command = [] from hrecover]
          exact hidle
        · intro path hpath
          cases hpath
      · rw [show command.exec host.umask s.store = none from hexec] at hexec'
        cases hexec'

/-- A run whose files were all clear when the loop looked at them. -/
theorem WrapInvariant.of_reachable {s : FeedLoop.State FileSystem Path Command}
    (h : Overlay host root T W fs)
    (hreach : FeedLoop.Reachable (wrapScript host setup root) fs s)
    (hclear : ∀ taken ∈ s.taken, WrapClear host setup taken) :
    WrapInvariant host setup root T s := by
  refine hreach.invariant_of_taken (WrapClear host setup) (WrapInvariant host setup root T) hclear
    (.start h) ?_
  intro s s' hinv hstep hclear
  exact hinv.step hstep hclear

/-- Where names do not collide, every file is clear. -/
theorem Overlay.wrapClear (h : Overlay host root T W fs) (hnames : NamesFree host setup root T)
    (hreported : WrapReported host root T x) : WrapClear host setup (fs, x) := by
  rcases wrapBody_cases host setup fs x with hnothing | ⟨hname, helf, hbackup⟩
  · exact Or.inl hnothing
  · right
    obtain ⟨hfresh, hwrappable⟩ := h.wrappable_of_isElfExecutable hreported hname helf
    rcases hnames.backup x hwrappable with hnone | hregular | hrefused
    · left
      obtain ⟨_, _, _, content, mode, hfile, _⟩ := id hwrappable
      have htemporary := hnames.temporary x hwrappable hnone
      have hwrapping : Wrapping host setup root T W fs x content mode :=
        ⟨h, hwrappable, hfresh, hnone, htemporary, hfile⟩
      exact ⟨hwrapping.at_orig, hwrapping.at_temporary⟩
    · rw [h.isRegular_of hregular] at hbackup
      cases hbackup
    · exact Or.inr ((h.refused_iff x).mpr hrefused)

theorem clear_of_namesFree {s : FeedLoop.State FileSystem Path Command}
    (hnames : NamesFree host setup root T) (h : Overlay host root T W fs)
    (hreach : FeedLoop.Reachable (wrapScript host setup root) fs s) :
    ∀ taken ∈ s.taken, WrapClear host setup taken := by
  have hboth : WrapInvariant host setup root T s ∧ ∀ taken ∈ s.taken, WrapClear host setup taken := by
    apply hreach.invariant fun s =>
      WrapInvariant host setup root T s ∧ ∀ taken ∈ s.taken, WrapClear host setup taken
    · exact ⟨.start h, List.forall_mem_nil _⟩
    · rintro s s' ⟨hinv, hclear⟩ hstep
      have hnext : ∀ taken ∈ s'.taken, WrapClear host setup taken := by
        cases hstep with
        | take item rest hidle hqueue =>
            have hprogress := hinv.progress
            rw [hidle] at hprogress
            obtain ⟨W, hoverlay⟩ := hprogress.overlay
            have hitem := hinv.reported item (hqueue ▸ List.mem_cons_self)
            intro taken htaken
            rcases List.mem_append.mp htaken with hold | hnew
            · exact hclear taken hold
            · rw [List.mem_singleton.mp hnew]
              exact hoverlay.wrapClear hnames hitem
        | _ => exact hclear
      exact ⟨hinv.step hstep hnext, hnext⟩
  exact hboth.2

/-- A command fails only where `mv` refuses to move the file. -/
theorem sound_of_not_refused {s : FeedLoop.State FileSystem Path Command}
    (hrefused : ∀ x, Wrappable host root T x → ¬ Refused T x) (h : Overlay host root T W fs)
    (hreach : FeedLoop.Reachable (wrapScript host setup root) fs s)
    (hclear : ∀ taken ∈ s.taken, WrapClear host setup taken) : s.failed = false := by
  have hboth : WrapInvariant host setup root T s ∧ s.failed = false := by
    refine hreach.invariant_of_taken (WrapClear host setup)
      (fun s => WrapInvariant host setup root T s ∧ s.failed = false) hclear ⟨.start h, rfl⟩ ?_
    rintro s s' ⟨hinv, hsound⟩ hstep hclear
    refine ⟨hinv.step hstep hclear, ?_⟩
    cases hstep with
    | fail command rest hpending hexec =>
        have hnone : command.exec host.umask s.store = none := hexec
        have hprogress := hinv.progress
        rw [hpending] at hprogress
        rcases hprogress.exec with ⟨⟨x, hx, hrefuses⟩, _⟩ | ⟨_, hexec', _⟩
        · exact absurd hrefuses (hrefused x hx)
        · rw [hnone] at hexec'
          cases hexec'
    | _ => exact hsound
  exact hboth.2

end Progress

end Icflow.Wrap
