import Icflow.Wrap.Log
import Icflow.Wrap.RestoreLoop
import Icflow.Wrap.WrapLoop

set_option autoImplicit false

/-!
# Wrapping is reversible

A session is any sequence of complete invocations of the two scripts on one tree.  As long
as names do not collide, every state of a session is an overlay of the tree, which may have
got a log (`Session.overlay`), every state inside the next invocation loses nothing, and a
restore gives the tree back.
-/

namespace Icflow.Wrap

open Icflow.Foundation

/-- Which invocations are looked at, by the tree they start on and the state they are in. -/
structure Scope where
  wraps : Setup → FileSystem → FeedLoop.State FileSystem Path Command → Prop
  restores : FeedLoop.State FileSystem Path Command → Prop

/-- All of them. -/
def Scope.all : Scope where
  wraps := fun _ _ _ => True
  restores := fun _ => True

/-- Those in which no name was in the way of a file that the loop has begun with. -/
def Scope.clear (host : Host) (root : Path) : Scope where
  wraps := fun setup _ s => s.GoodSoFar (wrapScript host setup root) (WrapClear host setup)
  restores := fun s => s.GoodSoFar (restoreScript host root) RestoreClear

/-- Those that make no log in the tree either. -/
def Scope.apart (host : Host) (root : Path) : Scope where
  wraps := fun setup fs s => LogApart root setup fs ∧ (Scope.clear host root).wraps setup fs s
  restores := (Scope.clear host root).restores

/-- Those that make no log in the tree, whatever names are in the way. -/
def Scope.logged (root : Path) : Scope where
  wraps := fun setup fs _ => LogApart root setup fs
  restores := fun _ => True

/-- The trees that complete invocations of the two scripts lead to. -/
inductive Session (host : Host) (root : Path) (T : FileSystem) (scope : Scope) :
    FileSystem → Prop where
  | start : Session host root T scope T
  | wrap (setup : Setup) (fs : FileSystem) (s : FeedLoop.State FileSystem Path Command)
      (hsession : Session host root T scope fs) (hends : WrapEnds host setup root fs s)
      (hscope : scope.wraps setup fs s) : Session host root T scope s.store
  | restore (fs : FileSystem) (s : FeedLoop.State FileSystem Path Command)
      (hsession : Session host root T scope fs)
      (hreach : FeedLoop.Reachable (restoreScript host root) fs s) (hfinished : s.Finished)
      (hscope : scope.restores s) : Session host root T scope s.store

/-- Nothing is lost, no wrapper is wrapped, and restoring gives the tree back. -/
structure Reversible (host : Host) (root : Path) (T : FileSystem) (scope : Scope) : Prop where
  wrapping : ∀ fs, Session host root T scope fs → ∀ setup s, Wraps host setup root fs s →
    scope.wraps setup fs s → Preserved T s.store ∧ NoWrappedWrapper root s.store
  restoring : ∀ fs, Session host root T scope fs → ∀ s,
    FeedLoop.Reachable (restoreScript host root) fs s → scope.restores s →
      Preserved T s.store ∧ NoWrappedWrapper root s.store
  restored : ∀ fs, Session host root T scope fs → ∀ s,
    FeedLoop.Reachable (restoreScript host root) fs s → s.Finished → scope.restores s →
      SameTree root s.store T

section Sessions

variable {host : Host} {setup : Setup} {root : Path} {T fs : FileSystem} {W : Set Path}
  {places : Set Path} {scope : Scope} {s : FeedLoop.State FileSystem Path Command}

/-- Between two commands of the wrap loop, over a tree that has got the log; a body that has
not begun has changed nothing. -/
theorem Wraps.progress (hwraps : Wraps host setup root fs s) (h : Overlay host root T W fs)
    (hplaces : ∀ path ∈ logPlaces setup fs, fs path = none → path ∈ places)
    (hclear : s.GoodSoFar (wrapScript host setup root) (WrapClear host setup)) :
    ∃ T', Grown places T T' ∧
      (WrapProgress host setup root T' s.store s.pending ∨
        WrapProgress host setup root T' s.store [] ∧
          ∃ fs x, s.pending = wrapBody host setup fs x) := by
  cases hwraps with
  | preparing done rest store hcommands hstore =>
      obtain ⟨T', hgrown, hoverlay⟩ := h.grow ((prepared_grown hcommands hstore).mono hplaces)
      exact ⟨T', hgrown, Or.inl (.idle W store hoverlay)⟩
  | looping ready s hready hreach =>
      have hall : prepareLog setup = prepareLog setup ++ [] := (List.append_nil _).symm
      obtain ⟨T', hgrown, hoverlay⟩ := h.grow ((prepared_grown hall hready).mono hplaces)
      refine ⟨T', hgrown, ?_⟩
      obtain ⟨s₀, hreach₀, hclear₀, hstore, hpending⟩ := hreach.of_goodSoFar hclear
      have hprogress := (WrapInvariant.of_reachable hoverlay hreach₀ hclear₀).progress
      rw [hstore] at hprogress
      rcases hpending with hsame | ⟨hidle, x, hbody⟩
      · rw [hsame] at hprogress
        exact Or.inl hprogress
      · rw [hidle] at hprogress
        exact Or.inr ⟨hprogress, s.store, x, hbody⟩

/-- The same of the restore loop. -/
theorem Overlay.restoreProgress (h : Overlay host root T W fs) (hmarker : Unmarked root T)
    (hreach : FeedLoop.Reachable (restoreScript host root) fs s)
    (hclear : s.GoodSoFar (restoreScript host root) RestoreClear) :
    ∃ W', RestoreProgress host root T W' s.store s.pending ∨
      RestoreProgress host root T W' s.store [] ∧ ∃ fs x, s.pending = restoreBody fs x := by
  obtain ⟨s₀, hreach₀, hclear₀, hstore, hpending⟩ := hreach.of_goodSoFar hclear
  obtain ⟨W', hinv⟩ := RestoreInvariant.of_reachable hmarker h hreach₀ hclear₀
  have hprogress := hinv.progress
  rw [hstore] at hprogress
  refine ⟨W', ?_⟩
  rcases hpending with hsame | ⟨hidle, x, hbody⟩
  · rw [hsame] at hprogress
    exact Or.inl hprogress
  · rw [hidle] at hprogress
    exact Or.inr ⟨hprogress, s.store, x, hbody⟩

/-- A complete restore leaves no file wrapped. -/
theorem Overlay.eq_of_finished (h : Overlay host root T W fs) (hmarker : Unmarked root T)
    (hreach : FeedLoop.Reachable (restoreScript host root) fs s) (hfinished : s.Finished)
    (hclear : s.GoodSoFar (restoreScript host root) RestoreClear) : s.store = T := by
  apply h.eq_of_restore hmarker hreach hfinished
  exact hclear.all hfinished.pending fun x hnothing => Or.inl hnothing

theorem WrapEnds.pending (hends : WrapEnds host setup root fs s) : s.pending = [] := by
  cases hends with
  | unprepared _ _ _ _ _ _ _ => rfl
  | looped _ _ _ _ hfinished => exact hfinished.pending

/-- What a scope asks of the log and of the names. -/
structure Scope.Within (host : Host) (root : Path) (places : Set Path) (scope : Scope) :
    Prop where
  log : ∀ setup fs s, scope.wraps setup fs s →
    ∀ path ∈ logPlaces setup fs, fs path = none → path ∈ places
  wraps : ∀ setup fs s, scope.wraps setup fs s →
    s.GoodSoFar (wrapScript host setup root) (WrapClear host setup)
  restores : ∀ s, scope.restores s → s.GoodSoFar (restoreScript host root) RestoreClear

theorem Scope.clear_within (host : Host) (root : Path) :
    (Scope.clear host root).Within host root Set.univ where
  log := fun _ _ _ _ path _ _ => Set.mem_univ path
  wraps := fun _ _ _ h => h
  restores := fun _ h => h

theorem Scope.apart_within (host : Host) (root : Path) :
    (Scope.apart host root).Within host root {path | ¬ Wrap.Within root path} where
  log := fun _ _ _ h path hplace hnone hwithin => h.1 path hplace hwithin hnone
  wraps := fun _ _ _ h => h.2
  restores := fun _ h => h

/-- A session leaves an overlay of the tree, which has grown by the logs. -/
theorem Session.overlay (hwithin : scope.Within host root places) (hmarker : Unmarked root T)
    (hsession : Session host root T scope fs) :
    ∃ T' W, Grown places T T' ∧ Overlay host root T' W fs := by
  induction hsession with
  | start => exact ⟨T, ∅, .refl places T, overlay_self host root T⟩
  | wrap setup fs s _ hends hscope ih =>
      obtain ⟨T', W, hgrown, h⟩ := ih
      obtain ⟨T'', hmore, hprogress⟩ := hends.wraps.progress h (hwithin.log setup fs s hscope)
        (hwithin.wraps setup fs s hscope)
      rw [hends.pending] at hprogress
      have hidle : WrapProgress host setup root T'' s.store [] := by
        rcases hprogress with hsame | ⟨hbefore, _⟩
        · exact hsame
        · exact hbefore
      obtain ⟨W', hoverlay⟩ := hidle.overlay
      exact ⟨T'', W', hgrown.trans hmore, hoverlay⟩
  | restore fs s _ hreach hfinished hscope ih =>
      obtain ⟨T', W, hgrown, h⟩ := ih
      refine ⟨T', ∅, hgrown, ?_⟩
      rw [h.eq_of_finished (hgrown.unmarked hmarker) hreach hfinished (hwithin.restores s hscope)]
      exact overlay_self host root T'

/-- Nothing is lost while the wrapper script runs. -/
theorem Session.properties_of_wraps (hwithin : scope.Within host root places)
    (hmarker : Unmarked root T) (hsession : Session host root T scope fs)
    (hwraps : Wraps host setup root fs s) (hscope : scope.wraps setup fs s) :
    Preserved T s.store ∧ NoWrappedWrapper root s.store := by
  obtain ⟨T', W, hgrown, h⟩ := hsession.overlay hwithin hmarker
  obtain ⟨T'', hmore, hprogress⟩ := hwraps.progress h (hwithin.log setup fs s hscope)
    (hwithin.wraps setup fs s hscope)
  have hall := hgrown.trans hmore
  have hmarker' := hall.unmarked hmarker
  have hproperties : Preserved T'' s.store ∧ NoWrappedWrapper root s.store := by
    rcases hprogress with hsame | ⟨hbefore, _⟩
    · exact hsame.properties hmarker'
    · exact hbefore.properties hmarker'
  exact ⟨hall.preserved hproperties.1, hproperties.2⟩

/-- Nothing is lost while the restore script runs. -/
theorem Session.properties_of_restores (hwithin : scope.Within host root places)
    (hmarker : Unmarked root T) (hsession : Session host root T scope fs)
    (hreach : FeedLoop.Reachable (restoreScript host root) fs s) (hscope : scope.restores s) :
    Preserved T s.store ∧ NoWrappedWrapper root s.store := by
  obtain ⟨T', W, hgrown, h⟩ := hsession.overlay hwithin hmarker
  have hmarker' := hgrown.unmarked hmarker
  obtain ⟨W', hprogress⟩ := h.restoreProgress hmarker' hreach (hwithin.restores s hscope)
  have hproperties : Preserved T' s.store ∧ NoWrappedWrapper root s.store := by
    rcases hprogress with hsame | ⟨hbefore, _⟩
    · exact hsame.properties hmarker'
    · exact hbefore.properties hmarker'
  exact ⟨hgrown.preserved hproperties.1, hproperties.2⟩

/-- A complete restore gives back a tree in which no log was made. -/
theorem Session.sameTree_of_restored (hwithin : scope.Within host root {path | ¬ Within root path})
    (hmarker : Unmarked root T) (hsession : Session host root T scope fs)
    (hreach : FeedLoop.Reachable (restoreScript host root) fs s) (hfinished : s.Finished)
    (hscope : scope.restores s) : SameTree root s.store T := by
  obtain ⟨T', W, hgrown, h⟩ := hsession.overlay hwithin hmarker
  rw [h.eq_of_finished (hgrown.unmarked hmarker) hreach hfinished (hwithin.restores s hscope)]
  exact hgrown.sameTree

end Sessions

section CollisionFree

variable {host : Host} {setup : Setup} {root : Path} {T fs : FileSystem}
  {s : FeedLoop.State FileSystem Path Command}

/-- Over an overlay of a collision-free tree that has grown outside, every run is in scope. -/
theorem apart_of_wraps (hmarker : Unmarked root T) (hfree : CollisionFree host root T)
    (hsession : Session host root T (.apart host root) fs) (hwraps : Wraps host setup root fs s)
    (hlog : LogApart root setup fs) : (Scope.apart host root).wraps setup fs s := by
  obtain ⟨T', W, hgrown, h⟩ := hsession.overlay (Scope.apart_within host root) hmarker
  refine ⟨hlog, s.taken, ?_, Or.inl rfl⟩
  cases hwraps with
  | preparing done rest store _ _ => exact List.forall_mem_nil _
  | looping ready _ hready hreach =>
      have hall := (List.append_nil (prepareLog setup)).symm
      obtain ⟨T'', hmore, hoverlay⟩ := h.grow (hlog.grown hall hready)
      exact clear_of_namesFree ((hfree.grow (hgrown.trans hmore)).names setup) hoverlay hreach

theorem apart_of_restores (hmarker : Unmarked root T) (hfree : CollisionFree host root T)
    (hsession : Session host root T (.apart host root) fs)
    (hreach : FeedLoop.Reachable (restoreScript host root) fs s) :
    (Scope.apart host root).restores s := by
  obtain ⟨T', W, hgrown, h⟩ := hsession.overlay (Scope.apart_within host root) hmarker
  have hclear := restoreClear_of_collisionFree (hgrown.unmarked hmarker) (hfree.grow hgrown) h hreach
  exact ⟨s.taken, hclear, Or.inl rfl⟩

theorem Session.apart (hmarker : Unmarked root T) (hfree : CollisionFree host root T)
    (hsession : Session host root T (.logged root) fs) :
    Session host root T (.apart host root) fs := by
  induction hsession with
  | start => exact .start
  | wrap setup fs s _ hends hlog ih =>
      exact .wrap setup fs s ih hends (apart_of_wraps hmarker hfree ih hends.wraps hlog)
  | restore fs s _ hreach hfinished _ ih =>
      exact .restore fs s ih hreach hfinished (apart_of_restores hmarker hfree ih hreach)

/-- Over a collision-free tree no name gets in the way, so that wrapping is reversible as long
as the logs are made outside. -/
theorem reversible_of_collisionFree (hmarker : Unmarked root T) (hfree : CollisionFree host root T) :
    Reversible host root T (.logged root) where
  wrapping := by
    intro fs hsession setup s hwraps hlog
    have hapart := hsession.apart hmarker hfree
    exact hapart.properties_of_wraps (Scope.apart_within host root) hmarker hwraps
      (apart_of_wraps hmarker hfree hapart hwraps hlog)
  restoring := by
    intro fs hsession s hreach _
    have hapart := hsession.apart hmarker hfree
    exact hapart.properties_of_restores (Scope.apart_within host root) hmarker hreach
      (apart_of_restores hmarker hfree hapart hreach)
  restored := by
    intro fs hsession s hreach hfinished _
    have hapart := hsession.apart hmarker hfree
    exact hapart.sameTree_of_restored (Scope.apart_within host root) hmarker hreach hfinished
      (apart_of_restores hmarker hfree hapart hreach)

end CollisionFree

/-! ## A tree with one executable -/

/-- A host on which every file with the ELF magic is an executable. -/
def sampleHost : Host where
  fileDescription := fun content _ =>
    if content.head? = some '\x7f' then "ELF 64-bit LSB executable".toList else "data".toList
  elf_magic := by
    intro content mode h
    by_contra hhead
    rw [if_neg hhead] at h
    exact absurd h (by decide)
  executable := fun mode => mode.testBit 6
  umask := { createMode := 0o644, addExecute := fun mode => mode ||| 0o111 }
  quote := fun text => text

/-- The one executable and its path. -/
def sampleElf : Node := .file ['\x7f', 'E', 'L', 'F'] 0o755

def samplePath : Path := ['/', 'r', '/', 'x']

/-- A directory with one executable in it, and something at its backup path. -/
def sampleTree (beside : Option Node) : FileSystem := fun path =>
  if path = samplePath then some sampleElf
  else if path = orig samplePath then beside
  else if path = ['/', 'r'] then some .directory
  else none

theorem none_ne_file (content : List Char) (mode : Nat) :
    (none : Option Node) ≠ some (.file content mode) := by
  intro h
  cases h

theorem sampleTree_file {beside : Option Node}
    (hbeside : ∀ content mode, beside ≠ some (.file content mode)) {path : Path}
    {content : List Char} {mode : Nat}
    (h : sampleTree beside path = some (.file content mode)) :
    path = samplePath ∧ sampleElf = .file content mode := by
  unfold sampleTree at h
  split at h
  · rename_i hpath
    exact ⟨hpath, Option.some.inj h⟩
  · split at h
    · exact absurd h (hbeside content mode)
    · split at h <;> cases h

theorem sampleTree_unmarked (beside : Option Node)
    (hbeside : ∀ content mode, beside ≠ some (.file content mode)) (root : Path) :
    Unmarked root (sampleTree beside) := by
  intro path content mode _ hfile
  obtain ⟨_, helf⟩ := sampleTree_file hbeside hfile
  obtain ⟨rfl, _⟩ := Node.file.inj helf
  decide

theorem sampleTree_collisionFree : CollisionFree sampleHost ['/', 'r'] (sampleTree none) := by
  have hpath : ∀ x, Wrappable sampleHost ['/', 'r'] (sampleTree none) x → x = samplePath := by
    rintro x ⟨_, _, _, content, mode, hfile, _⟩
    exact (sampleTree_file none_ne_file hfile).1
  refine ⟨?_, ?_, ?_⟩
  · intro x hx
    left
    rw [hpath x hx]
    decide
  · intro x pid hx _
    rw [hpath x hx]
    have hlength : 2 < (temporaryWrapper pid samplePath).length := by
      rw [temporaryWrapper, samplePath, List.length_append, List.length_append, List.length_cons,
        List.length_cons, List.length_cons, List.length_cons]
      omega
    rw [sampleTree, if_neg (temporaryWrapper_ne_self pid samplePath),
      if_neg (temporaryWrapper_ne_orig pid samplePath samplePath), if_neg]
    intro heq
    rw [heq] at hlength
    exact absurd hlength (by decide)
  · intro y target content mode hlink
    unfold sampleTree at hlink
    split at hlink
    · cases hlink
    · split at hlink
      · cases hlink
      · split at hlink <;> cases hlink

/-- The variables of an invocation. -/
def sampleSetup : Setup where
  pinRoot := "/pin".toList
  pintool := "/pin/MyPinTool.so".toList
  wrapLog := "/tmp/log".toList
  logPath := "/tmp/log".toList
  pid := 7

theorem sampleTree_matching (beside : Option Node)
    (hbeside : ∀ content mode, beside ≠ some (.file content mode)) (path : Path) :
    wrapMatching sampleHost ['/', 'r'] (sampleTree beside) path ↔ path = samplePath := by
  constructor
  · rintro ⟨_, _, content, mode, hfile, _⟩
    exact (sampleTree_file hbeside hfile).1
  · rintro rfl
    exact ⟨by decide, by decide, _, _, rfl, by decide⟩

/-- A run of the wrapper over the sample tree. -/
theorem completes_sampleTree (beside : Option Node)
    (hbeside : ∀ content mode, beside ≠ some (.file content mode)) {fs : FileSystem}
    (hrun : (wrapBody sampleHost sampleSetup (sampleTree beside) samplePath).foldlM
      (fun fs command => command.exec sampleHost.umask fs) (sampleTree beside) = some fs) :
    FeedLoop.Completes (wrapScript sampleHost sampleSetup ['/', 'r']) (sampleTree beside) fs := by
  have hmatch := sampleTree_matching beside hbeside
  apply FeedLoop.completes_of_single samplePath ((hmatch samplePath).mpr rfl) _ hrun
  exact fun other hother => (hmatch other).mp hother

/-- The tree when the log has been made beside it. -/
def withLog (fs : FileSystem) : FileSystem :=
  Function.update (Function.update fs "/tmp".toList (some .directory)) "/tmp/log".toList
    (some (.file [] 0o644))

theorem withLog_file {fs : FileSystem} {path : Path} {content : List Char} {mode : Nat}
    (h : withLog fs path = some (.file content mode)) :
    path = "/tmp/log".toList ∨ fs path = some (.file content mode) := by
  by_cases hlog : path = "/tmp/log".toList
  · exact Or.inl hlog
  · rw [withLog, Function.update_of_ne hlog, Function.update_apply] at h
    split at h
    · cases h
    · exact Or.inr h

theorem withLog_matching (beside : Option Node)
    (hbeside : ∀ content mode, beside ≠ some (.file content mode)) (path : Path) :
    wrapMatching sampleHost ['/', 'r'] (withLog (sampleTree beside)) path ↔ path = samplePath := by
  constructor
  · rintro ⟨hin, _, content, mode, hfile, _⟩
    rcases withLog_file hfile with rfl | htree
    · exact absurd hin (by decide)
    · exact (sampleTree_file hbeside htree).1
  · rintro rfl
    exact ⟨by decide, by decide, _, _, rfl, by decide⟩

theorem prepared_sampleTree (beside : Option Node) :
    runAll sampleHost.umask (prepareLog sampleSetup) (sampleTree beside) =
      some (withLog (sampleTree beside)) := rfl

/-- A run of the wrapper over the sample tree, log and all. -/
theorem wrapEnds_sampleTree (beside : Option Node)
    (hbeside : ∀ content mode, beside ≠ some (.file content mode)) {fs : FileSystem}
    (hrun : runAll sampleHost.umask
      (wrapBody sampleHost sampleSetup (withLog (sampleTree beside)) samplePath)
      (withLog (sampleTree beside)) = some fs) :
    ∃ s, WrapEnds sampleHost sampleSetup ['/', 'r'] (sampleTree beside) s ∧ s.store = fs ∧
      s.taken = [(withLog (sampleTree beside), samplePath)] := by
  have hmatch := withLog_matching beside hbeside
  have hsingle : ∀ other, wrapMatching sampleHost ['/', 'r'] (withLog (sampleTree beside)) other →
      other = samplePath := fun other hother => (hmatch other).mp hother
  have hloop : ∃ s, FeedLoop.Reachable (wrapScript sampleHost sampleSetup ['/', 'r'])
      (withLog (sampleTree beside)) s ∧ s.Finished ∧ s.failed = false ∧ s.store = fs ∧
        s.taken = [(withLog (sampleTree beside), samplePath)] :=
    FeedLoop.reachable_of_single samplePath ((hmatch samplePath).mpr rfl) hsingle hrun
  obtain ⟨s, hreach, hfinished, _, hstore, htaken⟩ := hloop
  exact ⟨s, .looped _ s (prepared_sampleTree beside) hreach hfinished, hstore, htaken⟩

theorem sampleSetup_logApart {root : Path} {fs : FileSystem}
    (hplaces : logPlaces sampleSetup fs = ["/tmp".toList, "/tmp/log".toList])
    (hdirectory : ¬ Within root "/tmp".toList) (hlog : ¬ Within root "/tmp/log".toList) :
    LogApart root sampleSetup fs := by
  intro path hpath hwithin
  exfalso
  rw [hplaces] at hpath
  rcases List.mem_cons.mp hpath with rfl | hlast
  · exact hdirectory hwithin
  · rw [List.mem_singleton.mp hlast] at hwithin
    exact hlog hwithin

theorem sampleTree_logApart : LogApart ['/', 'r'] sampleSetup (sampleTree none) :=
  sampleSetup_logApart (by decide) (by decide) (by decide)

end Icflow.Wrap
