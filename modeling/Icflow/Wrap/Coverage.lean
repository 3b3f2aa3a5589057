import Icflow.Wrap.Log
import Icflow.Wrap.WrapLoop

set_option autoImplicit false

/-!
# What a run of the wrapper covers

`find` reports a path at any time at which it matches, and the loop looks at the path later,
in a tree it has been changing.  Over a collision-free tree this makes no difference: a
complete run wraps the paths that its filters select in the tree it was started on.
-/

namespace Icflow.Wrap

open Icflow.Foundation

/-- `find` reports the path in this tree, and the loop has commands for it. -/
def Selected (host : Host) (setup : Setup) (root : Path) (fs : FileSystem) (binary : Path) :
    Prop :=
  wrapMatching host root fs binary ∧ wrapBody host setup fs binary ≠ []

/-- Between the two states a wrapper was put at the path, and what had been there at its
backup path. -/
structure Wrapped (before after : FileSystem) (binary : Path) : Prop where
  fresh : ¬ IsWrapper (before binary)
  wrapper : IsWrapper (after binary)
  backup : after (orig binary) = before binary

/-- Every selected file that is still what it was is at hand, in the queue, or still owed by
`find`. -/
def Owes (host : Host) (setup : Setup) (root : Path) (T : FileSystem)
    (s : FeedLoop.State FileSystem Path Command) : Prop :=
  ∀ x, Selected host setup root T x → s.store x = T x →
    .mv x (orig x) ∈ s.pending ∨ x ∈ s.steady ∧ (x ∈ s.reported → x ∈ s.queue)

section Coverage

variable {host : Host} {setup : Setup} {root : Path} {T fs fs' : FileSystem} {W : Set Path}
  {T' : FileSystem} {x : Path}

theorem selected_iff :
    Selected host setup root T x ↔
      Wrappable host root T x ∧ isRegular T (orig x) = false := by
  constructor
  · rintro ⟨⟨hin, hpkg, content, mode, hfile, hmode⟩, hbody⟩
    unfold wrapBody at hbody
    split at hbody
    · exact absurd rfl hbody
    · rename_i hname
      split at hbody
      · exact absurd rfl hbody
      · rename_i helf
        rw [not_not, isElfExecutable, hfile] at helf
        simp only at hbody
        split at hbody
        · exact absurd rfl hbody
        · rename_i hbackup
          rw [Bool.not_eq_true] at hname hbackup
          exact ⟨⟨hin, hpkg, hname, content, mode, hfile, hmode, helf⟩, hbackup⟩
  · rintro ⟨⟨hin, hpkg, hname, content, mode, hfile, hmode, hdescription⟩, hbackup⟩
    have helf : isElfExecutable host T x = true := by
      rw [isElfExecutable, hfile]
      exact hdescription
    refine ⟨⟨hin, hpkg, content, mode, hfile, hmode⟩, ?_⟩
    rw [wrapBody_eq hname helf hbackup]
    exact List.cons_ne_nil _ _

/-- An ELF file is no wrapper. -/
theorem Wrappable.not_isWrapper (h : Wrappable host root T x) : ¬ IsWrapper (T x) := by
  obtain ⟨_, _, _, content, mode, hfile, _, hdescription⟩ := h
  rintro ⟨content', mode', hwrapper, _, hhash⟩
  rw [hfile] at hwrapper
  cases hwrapper
  rw [not_describesExecutable host hhash mode] at hdescription
  cases hdescription

/-- A file with a free temporary name beside it has another name itself. -/
theorem Wrappable.ne_free {path : Path} (h : Wrappable host root T x) (hfree : T path = none) :
    x ≠ path := by
  rintro rfl
  obtain ⟨_, _, _, content, mode, hfile, _⟩ := h
  rw [hfree] at hfile
  cases hfile

theorem Overlay.wrapped_iff (h : Overlay host root T W fs) : Wrapped T fs x ↔ x ∈ W := by
  constructor
  · intro hwrapped
    rcases h.cases x with hW | ⟨y, hy, rfl⟩ | hsame
    · exact hW
    · have hwrapper := hwrapped.wrapper
      rw [h.backup y hy] at hwrapper
      exact absurd hwrapper (h.wrappable y hy).not_isWrapper
    · exact absurd (hsame ▸ hwrapped.wrapper) hwrapped.fresh
  · intro hx
    exact ⟨(h.wrappable x hx).not_isWrapper, h.wrapper x hx, h.backup x hx⟩

/-- The same files are selected while the log is made. -/
theorem selected_iff_of_grown (hnames : NamesFree host setup root T)
    (hlog : LogClear host setup root T) (hgrown : Grown {path | path ∈ logPlaces setup T} T T') :
    Selected host setup root T' x ↔ Selected host setup root T x := by
  have hregular : Wrappable host root T x → isRegular T' (orig x) = isRegular T (orig x) := by
    intro hx
    apply hgrown.isRegular_iff fun hnone => (hlog.free hgrown hx hnone).1
    rcases hnames.backup x hx with hnone | hregular | ⟨directory, hresolve, hdirectory, _⟩
    · exact Or.inl hnone
    · exact Or.inr (Or.inl hregular)
    · refine Or.inr (Or.inr ?_)
      rw [lookup, hresolve, Option.bind_some, hdirectory]
  rw [selected_iff, selected_iff]
  constructor
  · rintro ⟨hx, hbackup⟩
    have hbefore := hgrown.wrappable hx
    rw [hregular hbefore] at hbackup
    exact ⟨hbefore, hbackup⟩
  · rintro ⟨hx, hbackup⟩
    rw [← hregular hx] at hbackup
    refine ⟨?_, hbackup⟩
    obtain ⟨hin, hpkg, hname, content, mode, hfile, hexecutable⟩ := hx
    exact ⟨hin, hpkg, hname, content, mode, hgrown.of_some hfile, hexecutable⟩

/-- What is wrapped has been wrapped since before the log was made. -/
theorem Overlay.wrapped_iff_of_grown {places : Set Path} (h : Overlay host root T' W fs)
    (hgrown : Grown places T T') : Wrapped T fs x ↔ Wrapped T' fs x := by
  constructor
  · rintro ⟨hfresh, hwrapper, hbackup⟩
    rw [h.wrapped_iff]
    rcases h.cases x with hW | ⟨y, hy, rfl⟩ | hsame
    · exact hW
    · rw [h.backup y hy] at hwrapper
      exact absurd hwrapper (h.wrappable y hy).not_isWrapper
    · -- nothing that the log adds is a wrapper
      exfalso
      rw [hsame] at hwrapper
      by_cases hnone : T x = none
      · obtain ⟨content, mode, hfile, hline, _⟩ := hwrapper
        rcases (hgrown.added x hnone (hfile ▸ Option.some_ne_none _)).2 with
          hdirectory | ⟨mode', hempty⟩
        · rw [hfile] at hdirectory
          cases hdirectory
        · rw [hfile] at hempty
          cases hempty
          revert hline
          decide
      · rw [hgrown.kept x hnone] at hwrapper
        exact hfresh hwrapper
  · intro hwrapped
    have hwrappable := hgrown.wrappable (h.wrappable x (h.wrapped_iff.mp hwrapped))
    obtain ⟨_, _, _, content, mode, hfile, _⟩ := id hwrappable
    have hsame : T' x = T x := hgrown.kept x (hfile ▸ Option.some_ne_none _)
    exact ⟨hsame ▸ hwrapped.fresh, hwrapped.wrapper, hsame ▸ hwrapped.backup⟩

/-- A file that is what the tree has is not wrapped. -/
theorem Overlay.notMem_of_eq (h : Overlay host root T W fs) (hx : Wrappable host root T x)
    (hsame : fs x = T x) : x ∉ W := by
  intro hW
  exact hx.not_isWrapper (hsame ▸ h.wrapper x hW)

/-- The loop has its commands ready for a selected file whenever it comes to it. -/
theorem Overlay.mv_mem_wrapBody (h : Overlay host root T W fs)
    (hnames : NamesFree host setup root T) (hx : Selected host setup root T x) (hsame : fs x = T x) :
    .mv x (orig x) ∈ wrapBody host setup fs x := by
  obtain ⟨hwrappable, hbackup⟩ := selected_iff.mp hx
  have hfresh := h.notMem_of_eq hwrappable hsame
  have hirregular : isRegular fs (orig x) = false := by
    rcases hnames.backup x hwrappable with hnone | hregular | ⟨directory, hresolve, hdirectory, _⟩
    · have hhere : fs (orig x) = none := by
        rw [h.rest (orig x) _ _]
        · exact hnone
        · exact fun hW => (h.wrappable _ hW).ne_orig x rfl
        · exact fun y hy heq => hfresh (orig_injective heq ▸ hy)
      exact isRegular_of_free hhere
    · rw [hbackup] at hregular
      cases hregular
    · rw [isRegular, lookup, h.resolve_eq, hresolve, Option.bind_some, h.directory_of hdirectory]
  obtain ⟨_, _, hname, content, mode, hfile, _, hdescription⟩ := hwrappable
  have helf : isElfExecutable host fs x = true := by
    rw [isElfExecutable, hsame, hfile]
    exact hdescription
  rw [wrapBody_eq hname helf hirregular]
  exact List.mem_cons_self

/-- A command leaves a file as it was only if it is not about it. -/
theorem WrapProgress.untouched {command : Command} {rest : List Command}
    (h : WrapProgress host setup root T fs (command :: rest))
    (hexec : command.exec host.umask fs = some fs') (hx : Wrappable host root T x)
    (hsame : fs' x = T x) : fs x = T x ∧ command ≠ .mv x (orig x) := by
  obtain ⟨_, _, _, content', mode', hfile, _⟩ := id hx
  cases h with
  | refused W _ y _ h _ hrefused _ =>
      rw [h.exec_refused hrefused] at hexec
      cases hexec
  | ready W _ y content mode h =>
      rw [exec_mv_free host.umask h.at_self h.at_orig] at hexec
      obtain rfl := Option.some.inj hexec
      have hne : x ≠ y := by
        rintro rfl
        rw [Function.update_of_ne (orig_ne_self x).symm, Function.update_self, hfile] at hsame
        cases hsame
      rw [Function.update_of_ne (hx.ne_orig y), Function.update_of_ne hne] at hsame
      refine ⟨hsame, ?_⟩
      intro heq
      exact hne (Command.mv.inj heq).1.symm
  | moved W fs y content mode h =>
      have hnone : movedAway fs y (.file content mode) (temporaryWrapper setup.pid y) = none := by
        rw [movedAway_temporary]
        exact h.at_temporary
      rw [exec_write_free host.umask _ hnone] at hexec
      obtain rfl := Option.some.inj hexec
      have hne := hx.ne_free h.temporary
      rw [Function.update_of_ne hne] at hsame
      exact ⟨hsame, Command.noConfusion⟩
  | written W fs y content mode h =>
      rw [exec_chmod_file host.umask (Function.update_self _ _ _)] at hexec
      obtain rfl := Option.some.inj hexec
      have hne := hx.ne_free h.temporary
      rw [Function.update_of_ne hne] at hsame
      exact ⟨hsame, Command.noConfusion⟩
  | executable W fs y content mode h =>
      have hgone : Function.update (movedAway fs y (.file content mode))
          (temporaryWrapper setup.pid y)
          (some (.file (wrapperText host setup (orig y))
            (host.umask.addExecute host.umask.createMode))) y = none := by
        rw [Function.update_of_ne (temporaryWrapper_ne_self setup.pid y).symm]
        exact movedAway_self fs y _
      rw [exec_mv_free host.umask (Function.update_self _ _ _) hgone] at hexec
      obtain rfl := Option.some.inj hexec
      have hfresh := hx.ne_free h.temporary
      have hne : x ≠ y := by
        rintro rfl
        rw [Function.update_self] at hsame
        exact hx.not_isWrapper (hsame ▸ isWrapper_wrapperText host setup (orig x) _)
      rw [Function.update_of_ne hne, Function.update_of_ne hfresh] at hsame
      refine ⟨hsame, ?_⟩
      intro heq
      exact hfresh (Command.mv.inj heq).1.symm

/-- A file that is what it was still matches. -/
theorem Selected.matching_of_eq (h : Selected host setup root T x) (hsame : fs x = T x) :
    wrapMatching host root fs x := by
  obtain ⟨⟨hin, hpkg, content, mode, hfile, hmode⟩, _⟩ := h
  exact ⟨hin, hpkg, content, mode, hsame.trans hfile, hmode⟩

theorem owes_start (host : Host) (setup : Setup) (root : Path) (T : FileSystem) :
    Owes host setup root T (.start (wrapScript host setup root) T) := by
  intro x hx _
  refine Or.inr ⟨hx.1, ?_⟩
  intro hreported
  cases hreported

/-- No step of a run that goes on loses a file. -/
theorem Owes.step {s s' : FeedLoop.State FileSystem Path Command}
    (hnames : NamesFree host setup root T) (hinv : WrapInvariant host setup root T s)
    (h : Owes host setup root T s)
    (hstep : FeedLoop.Step (wrapScript host setup root) s s') (hsound : s'.failed = false) :
    Owes host setup root T s' := by
  intro x hx hsame
  cases hstep with
  | report item _ _ =>
      rcases h x hx hsame with hpending | ⟨hsteady, howed⟩
      · exact Or.inl hpending
      · refine Or.inr ⟨hsteady, ?_⟩
        intro hreported
        apply List.mem_append.mpr
        rcases hreported with hitem | hold
        · exact Or.inr (List.mem_singleton.mpr hitem)
        · exact Or.inl (howed hold)
  | finish _ _ => exact h x hx hsame
  | take item rest hidle hqueue =>
      have hprogress := hinv.progress
      rw [hidle] at hprogress
      obtain ⟨W, hoverlay⟩ := hprogress.overlay
      rcases eq_or_ne x item with rfl | hne
      · exact Or.inl (hoverlay.mv_mem_wrapBody hnames hx hsame)
      · rcases h x hx hsame with hpending | ⟨hsteady, howed⟩
        · rw [hidle] at hpending
          cases hpending
        · refine Or.inr ⟨hsteady, ?_⟩
          intro hreported
          have hmem := howed hreported
          rw [hqueue] at hmem
          exact (List.mem_cons.mp hmem).resolve_left hne
  | exec command rest store hpending hexec =>
      have hprogress := hinv.progress
      rw [hpending] at hprogress
      obtain ⟨hbefore, hother⟩ := hprogress.untouched hexec (selected_iff.mp hx).1 hsame
      rcases h x hx hbefore with hmem | ⟨hsteady, howed⟩
      · rw [hpending] at hmem
        rcases List.mem_cons.mp hmem with hself | hrest
        · exact absurd hself.symm hother
        · exact Or.inl hrest
      · exact Or.inr ⟨⟨hsteady, hx.matching_of_eq hsame⟩, howed⟩
  | fail command rest _ _ => cases hsound

theorem owes_of_reachable {s : FeedLoop.State FileSystem Path Command}
    (hnames : NamesFree host setup root T)
    (hreach : FeedLoop.Reachable (wrapScript host setup root) T s) (hsound : s.failed = false) :
    Owes host setup root T s := by
  have hclear := clear_of_namesFree hnames (overlay_self host root T) hreach
  have hinv : WrapInvariant host setup root T s ∧ (s.failed = false → Owes host setup root T s) := by
    refine hreach.invariant_of_taken (WrapClear host setup) (fun s =>
      WrapInvariant host setup root T s ∧ (s.failed = false → Owes host setup root T s)) hclear
      ⟨.start (overlay_self host root T), fun _ => owes_start host setup root T⟩ ?_
    rintro s s' ⟨hinv, howes⟩ hstep hclear
    refine ⟨hinv.step hstep hclear, ?_⟩
    intro hsound
    have hbefore : s.failed = false := by
      cases hstep with
      | fail _ _ _ _ => cases hsound
      | _ => exact hsound
    exact (howes hbefore).step hnames hinv hstep hsound
  exact hinv.2 hsound

/-- A complete run leaves an overlay. -/
theorem exists_overlay_of_finished {s : FeedLoop.State FileSystem Path Command}
    (hnames : NamesFree host setup root T)
    (hreach : FeedLoop.Reachable (wrapScript host setup root) T s) (hfinished : s.Finished) :
    ∃ W, Overlay host root T W s.store := by
  have hclear := clear_of_namesFree hnames (overlay_self host root T) hreach
  have hprogress := (WrapInvariant.of_reachable (overlay_self host root T) hreach hclear).progress
  rw [hfinished.pending] at hprogress
  exact hprogress.overlay

/-- A complete run without a failed command wraps exactly the selected files. -/
theorem wrapped_iff_selected {s : FeedLoop.State FileSystem Path Command}
    (hnames : NamesFree host setup root T)
    (hreach : FeedLoop.Reachable (wrapScript host setup root) T s) (hfinished : s.Finished)
    (hsound : s.failed = false) : Wrapped T s.store x ↔ Selected host setup root T x := by
  obtain ⟨W, hoverlay⟩ := exists_overlay_of_finished hnames hreach hfinished
  rw [hoverlay.wrapped_iff]
  constructor
  · intro hx
    have hnone : T (orig x) = none := hoverlay.free x hx
    exact selected_iff.mpr ⟨hoverlay.wrappable x hx, isRegular_of_free hnone⟩
  · intro hx
    rcases hoverlay.cases x with hW | ⟨y, _, rfl⟩ | hsame
    · exact hW
    · exact absurd rfl ((selected_iff.mp hx).1.ne_orig y)
    · -- a file that the run has left alone would still be owed
      rcases owes_of_reachable hnames hreach hsound x hx hsame with hpending | ⟨hsteady, howed⟩
      · rw [hfinished.pending] at hpending
        cases hpending
      · have hqueue := howed (hreach.steady_reported hfinished.ended hsound hsteady)
        rw [hfinished.queue] at hqueue
        cases hqueue

/-- Where no file is refused, none is refused when the log has been made. -/
theorem not_refused_of_grown (hnames : NamesFree host setup root T)
    (hlog : LogClear host setup root T) (hgrown : Grown {path | path ∈ logPlaces setup T} T T')
    (hrefused : ∀ x, Wrappable host root T x → ¬ Refused T x) (hx : Wrappable host root T' x) :
    ¬ Refused T' x := by
  have hbefore := hgrown.wrappable hx
  rintro ⟨directory, hresolve, hdirectory, _⟩
  rw [hgrown.resolve_eq] at hresolve
  rcases hnames.backup x hbefore with hnone | hregular | hrefuses
  · have hself : resolve T (orig x) = some (orig x) := by
      apply resolve_of_not_symlink
      intro target hlink
      rw [hnone] at hlink
      cases hlink
    obtain rfl : orig x = directory := Option.some.inj (hself.symm.trans hresolve)
    rw [(hlog.free hgrown hbefore hnone).1] at hdirectory
    cases hdirectory
  · rw [isRegular, lookup, hresolve, Option.bind_some] at hregular
    split at hregular
    · rename_i content mode hfile
      rw [hgrown.of_some hfile] at hdirectory
      cases hdirectory
    · cases hregular
  · exact hrefused x hbefore hrefuses

/-- Where no file is refused, a run that can make its log succeeds. -/
theorem WrapEnds.succeeds {s : FeedLoop.State FileSystem Path Command}
    (h : WrapEnds host setup root T s) (hnames : NamesFree host setup root T)
    (hlog : LogClear host setup root T)
    (hrefused : ∀ x, Wrappable host root T x → ¬ Refused T x)
    (hprepared : ∃ ready, runAll host.umask (prepareLog setup) T = some ready) :
    WrapSucceeds host setup root T s := by
  cases h with
  | unprepared done command rest store hcommands hstore hfails =>
      obtain ⟨ready, hready⟩ := hprepared
      rw [runAll] at hstore
      rw [runAll, hcommands, List.foldlM_append, hstore, Option.bind_eq_bind, Option.bind_some,
        List.foldlM_cons, hfails] at hready
      cases hready
  | looped ready _ hready hreach hfinished =>
      have hgrown := prepared_grown (List.append_nil (prepareLog setup)).symm hready
      have hself := overlay_self host root ready
      have hclear := clear_of_namesFree (hnames.grow hlog hgrown) hself hreach
      refine ⟨⟨ready, hready, hreach⟩, hfinished, ?_⟩
      apply sound_of_not_refused _ hself hreach hclear
      exact fun x hx => not_refused_of_grown hnames hlog hgrown hrefused hx

/-- The log makes no difference to what the script wraps. -/
theorem WrapSucceeds.wrapped_iff {s : FeedLoop.State FileSystem Path Command}
    (h : WrapSucceeds host setup root T s) (hnames : NamesFree host setup root T)
    (hlog : LogClear host setup root T) :
    Wrapped T s.store x ↔ Selected host setup root T x := by
  obtain ⟨ready, hready, hreach⟩ := h.ready
  have hgrown := prepared_grown (List.append_nil (prepareLog setup)).symm hready
  have hfree := hnames.grow hlog hgrown
  obtain ⟨W, hoverlay⟩ := exists_overlay_of_finished hfree hreach h.finished
  rw [hoverlay.wrapped_iff_of_grown hgrown, ← selected_iff_of_grown hnames hlog hgrown]
  exact wrapped_iff_selected hfree hreach h.finished h.sound

end Coverage

end Icflow.Wrap
