import Icflow.Wrap.Overlay

set_option autoImplicit false

/-!
# The restore loop

`RestoreProgress` lists the states between two commands of the loop.  A file that is
still wrapped is either the one at hand, or `find` owes its backup, or has reported it
(`RestoreInvariant`), so that a complete run leaves no file wrapped.
-/

namespace Icflow.Wrap

open Icflow.Foundation

section Progress

variable {host : Host} {root : Path} {T : FileSystem} {W : Set Path} {fs : FileSystem} {x : Path}

/-! ## One file being restored -/

/-- The commands that restore a file. -/
def restoreCommands (x : Path) : List Command := [.rm x, .mv (orig x) x]

/-- The states between two commands of the restore loop, with the files that are still
wrapped and the commands left. -/
inductive RestoreProgress (host : Host) (root : Path) (T : FileSystem) (W : Set Path) :
    FileSystem → List Command → Prop where
  | idle (fs : FileSystem) (h : Overlay host root T W fs) : RestoreProgress host root T W fs []
  | ready (fs : FileSystem) (x : Path) (h : Overlay host root T W fs) (hx : x ∈ W) :
      RestoreProgress host root T W fs (restoreCommands x)
  | removed (fs : FileSystem) (x : Path) (h : Overlay host root T W fs) (hx : x ∈ W) :
      RestoreProgress host root T W (Function.update fs x none) [.mv (orig x) x]

theorem RestoreProgress.overlay (h : RestoreProgress host root T W fs []) :
    Overlay host root T W fs := by
  cases h with
  | idle _ h => exact h

/-- Where the original of a wrapped file is. -/
theorem Overlay.at_orig (h : Overlay host root T W fs) (hx : x ∈ W) :
    ∃ content mode, fs (orig x) = some (.file content mode) := by
  obtain ⟨_, _, _, content, mode, hfile, _⟩ := h.wrappable x hx
  exact ⟨content, mode, (h.backup x hx).trans hfile⟩

/-- Moving the original back leaves one wrapped file less. -/
theorem Overlay.diff_singleton (h : Overlay host root T W fs) (hx : x ∈ W) :
    Overlay host root T (W \ {x})
      (Function.update (Function.update (Function.update fs x none) (orig x) none) x
        (fs (orig x))) where
  wrapper := by
    intro y hy
    have hne : y ≠ x := fun heq => hy.2 (Set.mem_singleton_iff.mpr heq)
    rw [Function.update_of_ne hne, Function.update_of_ne ((h.wrappable y hy.1).ne_orig x),
      Function.update_of_ne hne]
    exact h.wrapper y hy.1
  backup := by
    intro y hy
    have hne : orig y ≠ orig x :=
      fun heq => hy.2 (Set.mem_singleton_iff.mpr (orig_injective heq))
    have hself : orig y ≠ x := ((h.wrappable x hx).ne_orig y).symm
    rw [Function.update_of_ne hself, Function.update_of_ne hne, Function.update_of_ne hself]
    exact h.backup y hy.1
  rest := by
    intro path hpath hbackup
    by_cases hself : path = x
    · rw [hself, Function.update_self]
      exact h.backup x hx
    · rw [Function.update_of_ne hself]
      by_cases horig : path = orig x
      · rw [horig, Function.update_self]
        exact (h.free x hx).symm
      · rw [Function.update_of_ne horig, Function.update_of_ne hself]
        apply h.rest path
        · intro hW
          exact hpath ⟨hW, hself⟩
        · intro y hy heq
          by_cases hyx : y = x
          · exact horig (hyx ▸ heq)
          · exact hbackup y ⟨hy, hyx⟩ heq
  wrappable := fun y hy => h.wrappable y hy.1
  free := fun y hy => h.free y hy.1

/-- `rm` takes the wrapper away. -/
theorem Overlay.exec_rm (h : Overlay host root T W fs) (hx : x ∈ W) :
    Command.exec host.umask fs (.rm x) = some (Function.update fs x none) := by
  obtain ⟨content, mode, hfile, _⟩ := h.wrapper x hx
  exact exec_rm_file host.umask hfile

/-- `mv` puts the original where the wrapper was. -/
theorem Overlay.exec_mv_orig (h : Overlay host root T W fs) (hx : x ∈ W) :
    Command.exec host.umask (Function.update fs x none) (.mv (orig x) x) =
      some (Function.update (Function.update (Function.update fs x none) (orig x) none) x
        (fs (orig x))) := by
  obtain ⟨content, mode, hfile⟩ := h.at_orig hx
  have hsource : Function.update fs x none (orig x) = some (.file content mode) := by
    rw [Function.update_of_ne (orig_ne_self x), hfile]
  rw [exec_mv_free host.umask hsource (Function.update_self x none fs), hfile]

/-- While a file has no object at its path, nothing is lost either. -/
theorem Overlay.properties_removed (h : Overlay host root T W fs) (hmarker : Unmarked root T)
    (hx : x ∈ W) :
    Preserved T (Function.update fs x none) ∧ NoWrappedWrapper root (Function.update fs x none) := by
  have hself : ∀ path, orig path ≠ x := fun path heq => (h.wrappable x hx).ne_orig path heq.symm
  refine ⟨?_, ?_⟩
  · intro path content mode hfile
    rw [Function.update_of_ne (hself path)]
    by_cases hpath : path = x
    · rw [hpath] at hfile ⊢
      exact Or.inr ((h.backup x hx).trans hfile)
    · rw [Function.update_of_ne hpath]
      exact h.preserved path content mode hfile
  · intro path content mode hin hfile
    rw [Function.update_of_ne (hself path)] at hfile
    exact h.noWrappedWrapper hmarker path content mode hin hfile

theorem RestoreProgress.properties {pending : List Command}
    (h : RestoreProgress host root T W fs pending) (hmarker : Unmarked root T) :
    Preserved T fs ∧ NoWrappedWrapper root fs := by
  cases h with
  | idle _ h => exact ⟨h.preserved, h.noWrappedWrapper hmarker⟩
  | ready _ x h _ => exact ⟨h.preserved, h.noWrappedWrapper hmarker⟩
  | removed fs x h hx => exact h.properties_removed hmarker hx

/-! ## Which names are acted on -/

/-- What `find` can report while the loop runs. -/
structure RestoreReported (host : Host) (root : Path) (T : FileSystem) (path : Path) : Prop where
  inside : inTree root path = true
  suffix : ".orig".toList.isSuffixOf path = true
  source : (∃ content mode, T path = some (.file content mode)) ∨
    ∃ x, Wrappable host root T x ∧ path = orig x

theorem Overlay.reported (h : Overlay host root T W fs) {path : Path}
    (hmatch : restoreMatching root fs path) : RestoreReported host root T path := by
  obtain ⟨hin, hsuffix, content, mode, hfile⟩ := hmatch
  refine ⟨hin, hsuffix, ?_⟩
  rcases h.cases path with hW | ⟨y, hy, horig⟩ | hsame
  · obtain ⟨_, _, _, content', mode', htree, _⟩ := h.wrappable path hW
    exact Or.inl ⟨content', mode', htree⟩
  · exact Or.inr ⟨y, h.wrappable y hy, horig⟩
  · exact Or.inl ⟨content, mode, hsame ▸ hfile⟩

theorem RestoreProgress.reported {pending : List Command} {path : Path}
    (h : RestoreProgress host root T W fs pending) (hmatch : restoreMatching root fs path) :
    RestoreReported host root T path := by
  cases h with
  | idle _ h => exact h.reported hmatch
  | ready _ x h _ => exact h.reported hmatch
  | removed fs x h hx =>
      obtain ⟨hin, hsuffix, content, mode, hfile⟩ := hmatch
      have hne : path ≠ x := by
        intro heq
        rw [heq, Function.update_self] at hfile
        cases hfile
      rw [Function.update_of_ne hne] at hfile
      exact h.reported ⟨hin, hsuffix, content, mode, hfile⟩

/-- In the tree itself only wrappers bear the marker. -/
theorem Overlay.mem_of_marker (h : Overlay host root T W fs) (hmarker : Unmarked root T)
    {path : Path} {content : List Char} {mode : Nat} (hin : inTree root path = true)
    (hfile : fs path = some (.file content mode)) (hline : hasLine marker content = true) :
    path ∈ W := by
  rcases h.cases path with hW | ⟨y, hy, horig⟩ | hsame
  · exact hW
  · rw [horig, h.backup y hy] at hfile
    rw [hmarker y content mode (h.wrappable y hy).1 hfile] at hline
    cases hline
  · rw [hsame] at hfile
    rw [hmarker path content mode hin hfile] at hline
    cases hline

/-- A link that `link` speaks of leads to nothing that bears the marker. -/
theorem Overlay.not_marker_of_link (h : Overlay host root T W fs) (hmarker : Unmarked root T)
    (hfree : CollisionFree host root T) {y target path : Path} {content content' : List Char}
    {mode mode' : Nat} (hlink : T y = some (.symlink target))
    (hin : inTree root (orig y) = true) (horig : T (orig y) = some (.file content mode))
    (hresolve : resolve T y = some path) (hfile : fs path = some (.file content' mode')) :
    hasLine marker content' = false := by
  obtain ⟨hplain, hwrapped⟩ := hfree.link y target content mode hlink hin horig path hresolve
  rcases h.cases path with hW | ⟨z, hz, heq⟩ | hsame
  · exact absurd ⟨h.wrappable path hW, h.free path hW⟩ hwrapped
  · rw [heq, h.backup z hz] at hfile
    exact hmarker z content' mode' (h.wrappable z hz).1 hfile
  · exact hplain content' mode' (hsame ▸ hfile)

/-- The file `grep` has found the marker in. -/
theorem exists_of_bearsMarker {path : Path} (h : bearsMarker fs path = true) :
    ∃ final content mode, resolve fs path = some final ∧
      fs final = some (.file content mode) ∧ hasLine marker content = true := by
  unfold bearsMarker lookup at h
  cases hresolve : resolve fs path with
  | none =>
      rw [hresolve] at h
      cases h
  | some final =>
      rw [hresolve, Option.bind_some] at h
      split at h
      · rename_i content mode hfile
        exact ⟨final, content, mode, rfl, hfile, h⟩
      · cases h

/-- The loop acts on a backup only if the path beside it bears the marker. -/
theorem restoreBody_cases {path : Path} (hsuffix : ".orig".toList.isSuffixOf path = true) :
    restoreBody fs path = [] ∨ bearsMarker fs (stripOrig path) = true ∧
      restoreBody fs path = restoreCommands (stripOrig path) := by
  unfold restoreBody
  simp only
  split
  · rename_i htest
    rw [Bool.and_eq_true] at htest
    exact Or.inr ⟨htest.2, by rw [restoreCommands, orig_stripOrig hsuffix]⟩
  · exact Or.inl rfl

/-- Where names do not collide, the loop replaces no link. -/
theorem Overlay.restoreClear (h : Overlay host root T W fs) (hmarker : Unmarked root T)
    (hfree : CollisionFree host root T) {path : Path} (hpath : RestoreReported host root T path) :
    RestoreClear (fs, path) := by
  rcases restoreBody_cases hpath.suffix with hnothing | ⟨hbears, _⟩
  · exact Or.inl hnothing
  · right
    have horig := orig_stripOrig hpath.suffix
    obtain ⟨final, content, mode, hresolve, hfile, hline⟩ := exists_of_bearsMarker hbears
    rw [h.resolve_eq] at hresolve
    by_cases hlink : ∃ target, T (stripOrig path) = some (.symlink target)
    · -- a link is no wrapped file, so its backup is a file of the tree
      obtain ⟨target, hlink⟩ := hlink
      have hbackup : ∃ content mode, T (orig (stripOrig path)) = some (.file content mode) := by
        rw [horig]
        rcases hpath.source with hbackup | ⟨y, ⟨_, _, _, content', mode', hy, _⟩, hpath⟩
        · exact hbackup
        · rw [hpath, stripOrig_orig, hy] at hlink
          cases hlink
      obtain ⟨content', mode', hbackup⟩ := hbackup
      have hinside : inTree root (orig (stripOrig path)) = true := by
        rw [horig]
        exact hpath.inside
      rw [h.not_marker_of_link hmarker hfree hlink hinside hbackup hresolve hfile] at hline
      cases hline
    · have hself := resolve_of_not_symlink fun target htarget => hlink ⟨target, htarget⟩
      rw [hself] at hresolve
      obtain rfl := Option.some.inj hresolve
      exact ⟨content, mode, hfile⟩

/-- The loop acts on the backups of wrapped files only. -/
theorem Overlay.restoreBody_cases (h : Overlay host root T W fs) (hmarker : Unmarked root T)
    {path : Path} (hclear : RestoreClear (fs, path)) (hpath : RestoreReported host root T path) :
    restoreBody fs path = [] ∨
      ∃ x ∈ W, path = orig x ∧ restoreBody fs path = restoreCommands x := by
  have horig := orig_stripOrig hpath.suffix
  rcases Wrap.restoreBody_cases hpath.suffix with hnothing | ⟨hbears, hbody⟩
  · exact Or.inl hnothing
  · rcases hclear with hnothing | ⟨content, mode, hfile⟩
    · exact Or.inl hnothing
    · refine Or.inr ⟨stripOrig path, ?_, horig.symm, hbody⟩
      have hline : hasLine marker content = true := by
        rw [bearsMarker, lookup_of_file hfile] at hbears
        exact hbears
      have hin : inTree root (orig (stripOrig path)) = true := by
        rw [horig]
        exact hpath.inside
      exact h.mem_of_marker hmarker (inTree_of_orig hin) hfile hline

/-- The loop acts on the backup of every wrapped file. -/
theorem Overlay.restoreBody_orig (h : Overlay host root T W fs) (hx : x ∈ W) :
    restoreBody fs (orig x) = restoreCommands x := by
  obtain ⟨content, mode, hfile, hline, _⟩ := h.wrapper x hx
  have hregular : isRegular fs x = true := by
    rw [isRegular, lookup_of_file hfile]
  have hbears : bearsMarker fs x = true := by
    rw [bearsMarker, lookup_of_file hfile]
    exact hline
  unfold restoreBody
  simp only [stripOrig_orig, hregular, hbears, Bool.and_self, if_true, restoreCommands]

/-! ## All states of an invocation -/

/-- What holds in every state of an invocation, with the files still wrapped. -/
structure RestoreInvariant (host : Host) (root : Path) (T : FileSystem) (W : Set Path)
    (s : FeedLoop.State FileSystem Path Command) : Prop where
  sound : s.failed = false
  progress : RestoreProgress host root T W s.store s.pending
  reported : ∀ path ∈ s.queue, RestoreReported host root T path
  /-- Every wrapped file is at hand, in the queue, or still owed by `find`. -/
  owed : ∀ x ∈ W, .mv (orig x) x ∈ s.pending ∨
    orig x ∈ s.steady ∧ (orig x ∈ s.reported → orig x ∈ s.queue)

theorem Overlay.restoreMatching_orig (h : Overlay host root T W fs) (hx : x ∈ W) :
    restoreMatching root fs (orig x) := by
  obtain ⟨content, mode, hfile⟩ := h.at_orig hx
  exact ⟨inTree_orig (h.wrappable x hx).1, isSuffixOf_orig x, content, mode, hfile⟩

theorem RestoreInvariant.start (h : Overlay host root T W fs) :
    RestoreInvariant host root T W (.start (restoreScript host root) fs) where
  sound := rfl
  progress := .idle fs h
  reported := by
    intro path hpath
    cases hpath
  owed := by
    intro x hx
    refine Or.inr ⟨h.restoreMatching_orig hx, ?_⟩
    intro hreported
    cases hreported

/-- Taking an item keeps every wrapped file at hand or owed. -/
theorem RestoreInvariant.take {s : FeedLoop.State FileSystem Path Command} {item : Path}
    {rest : List Path} (hmarker : Unmarked root T) (hclear : RestoreClear (s.store, item))
    (hinv : RestoreInvariant host root T W s) (hidle : s.pending = [])
    (hqueue : s.queue = item :: rest) :
    RestoreInvariant host root T W
      { s with
        pending := restoreBody s.store item
        queue := rest
        taken := s.taken ++ [(s.store, item)] } := by
  have hprogress := hinv.progress
  rw [hidle] at hprogress
  have h := hprogress.overlay
  have hitem := hinv.reported item (hqueue ▸ List.mem_cons_self)
  refine ⟨hinv.sound, ?_, ?_, ?_⟩
  · rcases h.restoreBody_cases hmarker hclear hitem with hbody | ⟨x, hx, _, hbody⟩
    · simp only [hbody]
      exact .idle s.store h
    · simp only [hbody]
      exact .ready s.store x h hx
  · intro path hpath
    exact hinv.reported path (hqueue ▸ List.mem_cons_of_mem item hpath)
  · intro x hx
    by_cases heq : item = orig x
    · left
      simp only [heq, h.restoreBody_orig hx, restoreCommands]
      exact List.mem_cons_of_mem _ List.mem_cons_self
    · rcases hinv.owed x hx with hpending | ⟨hsteady, howed⟩
      · rw [hidle] at hpending
        cases hpending
      · refine Or.inr ⟨hsteady, ?_⟩
        intro hreported
        have hmem := howed hreported
        rw [hqueue] at hmem
        rcases List.mem_cons.mp hmem with hself | hrest
        · exact absurd hself.symm heq
        · exact hrest

/-- No command fails, and each leads to the next state. -/
theorem RestoreInvariant.exec {s : FeedLoop.State FileSystem Path Command} {command : Command}
    {rest : List Command} (hinv : RestoreInvariant host root T W s)
    (hpending : s.pending = command :: rest) :
    ∃ fs' W', command.exec host.umask s.store = some fs' ∧
      RestoreInvariant host root T W'
        { s with
          store := fs'
          pending := rest
          steady := s.steady ∩ {path | restoreMatching root fs' path} } := by
  have hprogress := hinv.progress
  have howed := hinv.owed
  rw [hpending] at hprogress howed
  generalize s.store = fs at hprogress
  cases hprogress with
  | ready _ x h hx =>
      refine ⟨Function.update fs x none, W, h.exec_rm hx, hinv.sound, .removed fs x h hx,
        hinv.reported, ?_⟩
      intro y hy
      rcases howed y hy with hmem | ⟨hsteady, howed⟩
      · refine Or.inl ?_
        rcases List.mem_cons.mp hmem with hrm | hrest
        · cases hrm
        · exact hrest
      · obtain ⟨hin, hsuffix, content, mode, hfile⟩ := h.restoreMatching_orig hy
        refine Or.inr ⟨⟨hsteady, hin, hsuffix, content, mode, ?_⟩, howed⟩
        rw [Function.update_of_ne ((h.wrappable x hx).ne_orig y).symm]
        exact hfile
  | removed fs x h hx =>
      have hnext := h.diff_singleton hx
      refine ⟨_, W \ {x}, h.exec_mv_orig hx, hinv.sound, .idle _ hnext, hinv.reported, ?_⟩
      intro y hy
      have hne : y ≠ x := fun heq => hy.2 (Set.mem_singleton_iff.mpr heq)
      rcases howed y hy.1 with hmem | ⟨hsteady, howed⟩
      · rcases List.mem_cons.mp hmem with hmv | hrest
        · exact absurd (Command.mv.inj hmv).2 hne
        · cases hrest
      · exact Or.inr ⟨⟨hsteady, hnext.restoreMatching_orig hy⟩, howed⟩

theorem RestoreInvariant.step {s s' : FeedLoop.State FileSystem Path Command}
    (hmarker : Unmarked root T) (hinv : RestoreInvariant host root T W s)
    (hstep : FeedLoop.Step (restoreScript host root) s s')
    (hclear : ∀ taken ∈ s'.taken, RestoreClear taken) :
    ∃ W', RestoreInvariant host root T W' s' := by
  cases hstep with
  | report item _ hmatch =>
      refine ⟨W, hinv.sound, hinv.progress, ?_, ?_⟩
      · intro path hpath
        rcases List.mem_append.mp hpath with hold | hnew
        · exact hinv.reported path hold
        · obtain rfl := List.mem_singleton.mp hnew
          exact hinv.progress.reported hmatch
      · intro x hx
        rcases hinv.owed x hx with hpending | ⟨hsteady, howed⟩
        · exact Or.inl hpending
        · refine Or.inr ⟨hsteady, ?_⟩
          intro hreported
          apply List.mem_append.mpr
          rcases hreported with hitem | hold
          · exact Or.inr (List.mem_singleton.mpr hitem)
          · exact Or.inl (howed hold)
  | finish _ _ => exact ⟨W, hinv.sound, hinv.progress, hinv.reported, hinv.owed⟩
  | take item rest hidle hqueue =>
      have hitem : RestoreClear (s.store, item) :=
        hclear _ (List.mem_append_right _ (List.mem_singleton_self _))
      exact ⟨W, hinv.take hmarker hitem hidle hqueue⟩
  | exec command rest store hpending hexec =>
      obtain ⟨fs', W', hexec', hnext⟩ := hinv.exec hpending
      obtain rfl : fs' = store := Option.some.inj (hexec'.symm.trans hexec)
      exact ⟨W', hnext⟩
  | fail command rest hpending hexec =>
      obtain ⟨fs', W', hexec', _⟩ := hinv.exec hpending
      have hnone : command.exec host.umask s.store = none := hexec
      rw [hnone] at hexec'
      cases hexec'

/-- A run that was about to replace no link. -/
theorem RestoreInvariant.of_reachable {s : FeedLoop.State FileSystem Path Command}
    (hmarker : Unmarked root T) (h : Overlay host root T W fs)
    (hreach : FeedLoop.Reachable (restoreScript host root) fs s)
    (hclear : ∀ taken ∈ s.taken, RestoreClear taken) :
    ∃ W', RestoreInvariant host root T W' s := by
  refine hreach.invariant_of_taken RestoreClear (fun s => ∃ W', RestoreInvariant host root T W' s)
    hclear ⟨W, .start h⟩ ?_
  rintro s s' ⟨W', hinv⟩ hstep hclear
  exact hinv.step hmarker hstep hclear

theorem restoreClear_of_collisionFree {s : FeedLoop.State FileSystem Path Command}
    (hmarker : Unmarked root T) (hfree : CollisionFree host root T)
    (h : Overlay host root T W fs) (hreach : FeedLoop.Reachable (restoreScript host root) fs s) :
    ∀ taken ∈ s.taken, RestoreClear taken := by
  have hboth : (∃ W', RestoreInvariant host root T W' s) ∧ ∀ taken ∈ s.taken, RestoreClear taken := by
    apply hreach.invariant fun s =>
      (∃ W', RestoreInvariant host root T W' s) ∧ ∀ taken ∈ s.taken, RestoreClear taken
    · exact ⟨⟨W, .start h⟩, List.forall_mem_nil _⟩
    · rintro s s' ⟨⟨W', hinv⟩, hclear⟩ hstep
      have hnext : ∀ taken ∈ s'.taken, RestoreClear taken := by
        cases hstep with
        | take item rest hidle hqueue =>
            have hprogress := hinv.progress
            rw [hidle] at hprogress
            have hitem := hinv.reported item (hqueue ▸ List.mem_cons_self)
            intro taken htaken
            rcases List.mem_append.mp htaken with hold | hnew
            · exact hclear taken hold
            · rw [List.mem_singleton.mp hnew]
              exact hprogress.overlay.restoreClear hmarker hfree hitem
        | _ => exact hclear
      exact ⟨hinv.step hmarker hstep hnext, hnext⟩
  exact hboth.2

/-- A complete run leaves no file wrapped. -/
theorem Overlay.eq_of_restore (h : Overlay host root T W fs) (hmarker : Unmarked root T)
    {s : FeedLoop.State FileSystem Path Command}
    (hreach : FeedLoop.Reachable (restoreScript host root) fs s) (hfinished : s.Finished)
    (hclear : ∀ taken ∈ s.taken, RestoreClear taken) : s.store = T := by
  obtain ⟨W', hinv⟩ := RestoreInvariant.of_reachable hmarker h hreach hclear
  have hprogress := hinv.progress
  rw [hfinished.pending] at hprogress
  have hoverlay := hprogress.overlay
  have hempty : W' = ∅ := by
    apply Set.eq_empty_of_forall_notMem
    intro x hx
    rcases hinv.owed x hx with hpending | ⟨hsteady, howed⟩
    · rw [hfinished.pending] at hpending
      cases hpending
    · have hqueue := howed
        (hreach.steady_reported hfinished.ended hinv.sound hsteady)
      rw [hfinished.queue] at hqueue
      cases hqueue
  subst hempty
  exact hoverlay.eq_of_empty

end Progress

end Icflow.Wrap
