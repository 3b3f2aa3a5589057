import Icflow.Foundation.ShellScript
import Icflow.Wrap.Location

set_option autoImplicit false

/-!
# What a wrapped file does when it is called

A wrapper is a script that the wrapper script has written, with four paths quoted by
`printf %q`.  Whatever characters are in them, the shell reads them back, so that a call of
a wrapped file is logged and becomes the same call of the original under Pin.

This is so for every selected file after a complete run, and running the script again
changes nothing.
-/

namespace Icflow.Wrap

open Icflow.Foundation Shell

/-! ## Running a wrapper -/

/-- The call of the original that a call of its wrapper becomes. -/
def proxied (setup : Setup) (original : Path) (invocation : Invocation) : Effects where
  appended := [(setup.wrapLog, invocation.zero ++ '\t' :: (invocation.joined ++ ['\n']))]
  replaced := some ((setup.pinRoot ++ "/pin".toList) :: "-t".toList :: setup.pintool ::
    "--".toList :: original :: invocation.arguments)

/-- `realpath` names a file by bytes, from the root on. -/
structure Setup.Resolved (setup : Setup) : Prop where
  pin : Bytes (setup.pinRoot ++ "/pin".toList)
  absolute : (setup.pinRoot ++ "/pin".toList).head? = some '/'
  pintool : Bytes setup.pintool
  wrapLog : Bytes setup.wrapLog

section Wrapper

variable {locale : Printing} {setup : Setup} {original : Path}

theorem bytes_of_all {text : List Char}
    (h : text.all (fun c => decide (0 < c.toNat ∧ c.toNat < 256)) = true) : Bytes text :=
  fun c hc => of_decide_eq_true (List.all_eq_true.mp h c hc)

theorem bytes_orig {x : Path} (h : Bytes x) : Bytes (orig x) := by
  intro c hc
  rcases List.mem_append.mp hc with hpath | hsuffix
  · exact h c hpath
  · exact bytes_of_all (by decide) c hsuffix

/-- A word without quotes or parameters in it. -/
def literal (text : String) : Word := text.toList.map Piece.char

theorem ends_newline (rest : List Char) : Ends ('\n' :: rest) := by
  intro c hc
  obtain rfl := Option.some.inj hc
  rfl

theorem ends_blank (rest : List Char) : Ends (' ' :: rest) := by
  intro c hc
  obtain rfl := Option.some.inj hc
  rfl

/-- The line that writes to the log. -/
theorem readLine_log (fuel : Nat) {log : Path} (hlog : Bytes log) (rest : List Char) :
    readLine (fuel + 6) ("printf \"%s\\t%s\\n\" \"$0\" \"$*\" >> ".toList ++
        quoteWord locale log ++ '\n' :: rest) =
      some (⟨[literal "printf", literal "%s\\t%s\\n", [.zero], [.star]],
        some (log.map Piece.char)⟩, rest) := by
  have hend : readLine (fuel + 1) ('\n' :: rest) = some (⟨[], none⟩, rest) := rfl
  have htarget : readLine (fuel + 2) ('>' :: '>' :: ' ' :: (quoteWord locale log ++ '\n' :: rest)) =
      addTarget (log.map Piece.char) (readLine (fuel + 1) ('\n' :: rest)) :=
    readLine_appendTo locale hlog (ends_newline rest)
  calc readLine (fuel + 6) ("printf \"%s\\t%s\\n\" \"$0\" \"$*\" >> ".toList ++
        quoteWord locale log ++ '\n' :: rest)
      = addWord (literal "printf") (addWord (literal "%s\\t%s\\n") (addWord [.zero]
          (addWord [.star] (readLine (fuel + 2)
            ('>' :: '>' :: ' ' :: (quoteWord locale log ++ '\n' :: rest)))))) := by
        rw [List.append_assoc]
        rfl
    _ = _ := by
      rw [htarget, hend]
      rfl

/-- The line that calls Pin. -/
theorem readLine_pin (fuel : Nat) {pin pintool : Path} (hpin : Bytes pin)
    (hpintool : Bytes pintool) (horiginal : Bytes original) :
    readLine (fuel + 8) ("exec ".toList ++ quoteWord locale pin ++ " -t ".toList ++
        quoteWord locale pintool ++ " -- ".toList ++ quoteWord locale original ++
        " \"$@\"\n".toList) =
      some (⟨[literal "exec", pin.map Piece.char, literal "-t", pintool.map Piece.char,
        literal "--", original.map Piece.char, [.each]], none⟩, []) := by
  have hexec : ∀ rest, readLine (fuel + 8) ("exec ".toList ++ rest) =
      addWord (literal "exec") (readLine (fuel + 7) rest) :=
    fun rest => congrArg (addWord (literal "exec")) (readLine_blank rest)
  have hoption : ∀ rest, readLine (fuel + 6) (" -t ".toList ++ rest) =
      addWord (literal "-t") (readLine (fuel + 5) rest) :=
    fun rest => congrArg (addWord (literal "-t")) (readLine_blank rest)
  have hdashes : ∀ rest, readLine (fuel + 4) (" -- ".toList ++ rest) =
      addWord (literal "--") (readLine (fuel + 3) rest) :=
    fun rest => congrArg (addWord (literal "--")) (readLine_blank rest)
  have hpinEnds : ∀ rest, Ends (" -t ".toList ++ rest) := fun _ => ends_blank _
  have hpintoolEnds : ∀ rest, Ends (" -- ".toList ++ rest) := fun _ => ends_blank _
  have horiginalEnds : Ends " \"$@\"\n".toList := ends_blank _
  have hall : readLine (fuel + 2) (" \"$@\"\n".toList) = some (⟨[[.each]], none⟩, []) := rfl
  simp only [List.append_assoc]
  rw [hexec, readLine_quoteWord locale hpin (hpinEnds _), hoption,
    readLine_quoteWord locale hpintool (hpintoolEnds _), hdashes,
    readLine_quoteWord locale horiginal horiginalEnds, hall]
  rfl

/-- A wrapper has a line for the log and a line for Pin. -/
theorem readScript_wrapperText {host : Host} (hquote : host.quote = quoteWord locale)
    (hsetup : setup.Resolved) (horiginal : Bytes original) :
    readScript (wrapperText host setup original) = some
      [⟨[literal "printf", literal "%s\\t%s\\n", [.zero], [.star]],
          some (setup.wrapLog.map Piece.char)⟩,
        ⟨[literal "exec", (setup.pinRoot ++ "/pin".toList).map Piece.char, literal "-t",
          setup.pintool.map Piece.char, literal "--", original.map Piece.char, [.each]], none⟩] := by
  have hlength : 11 ≤ (wrapperText host setup original).length := by
    have hshebang : shebang.length = 19 := rfl
    rw [wrapperText, List.length_append, hshebang]
    omega
  obtain ⟨fuel, hfuel⟩ := Nat.exists_eq_add_of_le' hlength
  have hcomment : ∀ rest, readLine (fuel + 11) (shebang ++ '\n' :: rest) =
      some (⟨[], none⟩, rest) := fun _ => rfl
  have hmarker : ∀ rest, readLine (fuel + 10) (marker ++ '\n' :: rest) =
      some (⟨[], none⟩, rest) := fun _ => rfl
  have hline : ∀ line rest : List Char, line ++ '\n' :: rest ≠ [] :=
    fun line rest => List.append_ne_nil_of_right_ne_nil line (List.cons_ne_nil '\n' rest)
  have hlast : ∀ line : List Char, line ++ " \"$@\"\n".toList ≠ [] :=
    fun line => List.append_ne_nil_of_right_ne_nil line (by decide)
  rw [readScript, hfuel, wrapperText, hquote, readLines_line (hline shebang _) (hcomment _),
    readLines_line (hline marker _) (hmarker _),
    readLines_line (hline _ _) (readLine_log (fuel + 3) hsetup.wrapLog _),
    readLines_line (hlast _) (readLine_pin fuel hsetup.pin hsetup.pintool horiginal)]
  rfl

/-- A call of a wrapper is logged and becomes the call of the original. -/
theorem runScript_wrapperText {host : Host} (hquote : host.quote = quoteWord locale)
    (hsetup : setup.Resolved) (horiginal : Bytes original) (invocation : Invocation) :
    runScript invocation (wrapperText host setup original) =
      some (proxied setup original invocation) := by
  have htext := fun text => expandWord_text invocation text
  have hlog := expandWords_cons (htext "printf".toList) <|
    expandWords_cons (htext "%s\\t%s\\n".toList) <|
    expandWords_cons (expandWord_zero invocation) <|
    expandWords_cons (expandWord_star invocation) (expandWords_nil invocation)
  have hcall := expandWords_cons (htext "exec".toList) <|
    expandWords_cons (htext (setup.pinRoot ++ "/pin".toList)) <|
    expandWords_cons (htext "-t".toList) <| expandWords_cons (htext setup.pintool) <|
    expandWords_cons (htext "--".toList) <| expandWords_cons (htext original) <|
    expandWords_cons (expandWord_each invocation) (expandWords_nil invocation)
  have hprinted : printfText "%s\\t%s\\n".toList [invocation.zero, invocation.joined] =
      some (invocation.zero ++ '\t' :: (invocation.joined ++ ['\n'])) := rfl
  have hrun := runLines_printf hlog (htext setup.wrapLog) hprinted <|
    runLines_exec [] hcall hsetup.absolute
  rw [List.append_nil invocation.arguments] at hrun
  rw [runScript, readScript_wrapperText hquote hsetup horiginal, Option.bind_some]
  exact hrun

end Wrapper

/-! ## What is at the paths of the tree -/

/-- The file that a run puts in place of another. -/
def wrapper (host : Host) (setup : Setup) (binary : Path) : Node :=
  .file (wrapperText host setup (orig binary)) (host.umask.addExecute host.umask.createMode)

/-- A file that may be wrapped is what it was, on its way, or its own wrapper. -/
def OwnWrappers (host : Host) (setup : Setup) (root : Path) (T fs : FileSystem) : Prop :=
  ∀ x, Wrappable host root T x →
    fs x = T x ∨ fs x = none ∨ fs x = some (wrapper host setup x)

section OwnWrappers

variable {host : Host} {setup : Setup} {root : Path} {T fs fs' : FileSystem}

/-- A change at paths where no file may be wrapped. -/
theorem OwnWrappers.congr (h : OwnWrappers host setup root T fs)
    (hsame : ∀ x, Wrappable host root T x → fs' x = fs x) : OwnWrappers host setup root T fs' := by
  intro x hx
  rw [hsame x hx]
  exact h x hx

/-- No command puts anything else at such a path. -/
theorem OwnWrappers.exec {command : Command} {rest : List Command}
    (h : OwnWrappers host setup root T fs)
    (hprogress : WrapProgress host setup root T fs (command :: rest))
    (hexec : command.exec host.umask fs = some fs') :
    OwnWrappers host setup root T fs' := by
  cases hprogress with
  | refused W _ y _ hoverlay _ hrefused _ =>
      rw [hoverlay.exec_refused hrefused] at hexec
      cases hexec
  | ready W _ y content mode hy =>
      rw [exec_mv_free host.umask hy.at_self hy.at_orig] at hexec
      obtain rfl := Option.some.inj hexec
      intro x hx
      rw [Function.update_of_ne (hx.ne_orig y)]
      rcases eq_or_ne x y with rfl | hne
      · rw [Function.update_self]
        exact Or.inr (Or.inl rfl)
      · rw [Function.update_of_ne hne]
        exact h x hx
  | moved W fs y content mode hy =>
      have hnone : movedAway fs y (.file content mode) (temporaryWrapper setup.pid y) = none := by
        rw [movedAway_temporary]
        exact hy.at_temporary
      rw [exec_write_free host.umask _ hnone] at hexec
      obtain rfl := Option.some.inj hexec
      apply h.congr
      intro x hx
      rw [Function.update_of_ne (hx.ne_free hy.temporary)]
  | written W fs y content mode hy =>
      rw [exec_chmod_file host.umask (Function.update_self _ _ _)] at hexec
      obtain rfl := Option.some.inj hexec
      apply h.congr
      intro x hx
      rw [Function.update_of_ne (hx.ne_free hy.temporary)]
  | executable W fs y content mode hy =>
      have hgone : Function.update (movedAway fs y (.file content mode))
          (temporaryWrapper setup.pid y)
          (some (.file (wrapperText host setup (orig y))
            (host.umask.addExecute host.umask.createMode))) y = none := by
        rw [Function.update_of_ne (temporaryWrapper_ne_self setup.pid y).symm]
        exact movedAway_self fs y _
      rw [exec_mv_free host.umask (Function.update_self _ _ _) hgone] at hexec
      obtain rfl := Option.some.inj hexec
      intro x hx
      rcases eq_or_ne x y with rfl | hne
      · rw [Function.update_self]
        exact Or.inr (Or.inr rfl)
      · rw [Function.update_of_ne hne, Function.update_of_ne (hx.ne_free hy.temporary)]
        exact h x hx

theorem ownWrappers_of_reachable {s : FeedLoop.State FileSystem Path Command}
    (hnames : NamesFree host setup root T)
    (hreach : FeedLoop.Reachable (wrapScript host setup root) T s) :
    OwnWrappers host setup root T s.store := by
  have hself := overlay_self host root T
  have hboth : WrapInvariant host setup root T s ∧ OwnWrappers host setup root T s.store := by
    refine hreach.invariant_of_taken (WrapClear host setup)
      (fun s => WrapInvariant host setup root T s ∧ OwnWrappers host setup root T s.store)
      (clear_of_namesFree hnames hself hreach) ⟨.start hself, fun _ _ => Or.inl rfl⟩ ?_
    rintro s s' ⟨hinv, hown⟩ hstep hclear
    refine ⟨hinv.step hstep hclear, ?_⟩
    cases hstep with
    | exec command rest store hpending hexec =>
        have hprogress := hinv.progress
        rw [hpending] at hprogress
        exact hown.exec hprogress hexec
    | _ => exact hown
  exact hboth.2

/-- What a run leaves at every path of the tree. -/
structure WrappedTree (host : Host) (setup : Setup) (root : Path) (T fs : FileSystem) : Prop where
  wrapped : ∀ x, Selected host setup root T x → fs x = some (wrapper host setup x)
  backup : ∀ x, Selected host setup root T x → fs (orig x) = T x
  rest : ∀ path, ¬ Selected host setup root T path →
    (∀ x, Selected host setup root T x → path ≠ orig x) → fs path = T path

theorem wrappedTree_of_finished (hnames : NamesFree host setup root T)
    {s : FeedLoop.State FileSystem Path Command}
    (hreach : FeedLoop.Reachable (wrapScript host setup root) T s) (hfinished : s.Finished)
    (hsound : s.failed = false) : WrappedTree host setup root T s.store := by
  have hwrapped : ∀ x, Wrapped T s.store x ↔ Selected host setup root T x :=
    fun x => wrapped_iff_selected hnames hreach hfinished hsound
  refine ⟨?_, fun x hx => ((hwrapped x).mpr hx).backup, ?_⟩
  · intro x hx
    obtain ⟨hfresh, hwrapper, _⟩ := (hwrapped x).mpr hx
    rcases ownWrappers_of_reachable hnames hreach x (selected_iff.mp hx).1 with hsame | hnone | hown
    · rw [hsame] at hwrapper
      exact absurd hwrapper hfresh
    · obtain ⟨_, _, hfile, _⟩ := hwrapper
      rw [hnone] at hfile
      cases hfile
    · exact hown
  · intro path hpath hbackup
    obtain ⟨W, hoverlay⟩ := exists_overlay_of_finished hnames hreach hfinished
    apply hoverlay.rest path
    · intro hW
      exact hpath ((hwrapped path).mp (hoverlay.wrapped_iff.mpr hW))
    · intro x hW
      exact hbackup x ((hwrapped x).mp (hoverlay.wrapped_iff.mpr hW))

/-- The log is made first, and then every selected file is replaced. -/
theorem WrapSucceeds.wrappedTree {s : FeedLoop.State FileSystem Path Command}
    (h : WrapSucceeds host setup root T s) (hnames : NamesFree host setup root T)
    (hlog : LogClear host setup root T) :
    ∃ ready, Grown {path | path ∈ logPlaces setup T} T ready ∧
      (∀ x, Selected host setup root ready x ↔ Selected host setup root T x) ∧
        WrappedTree host setup root ready s.store := by
  obtain ⟨ready, hready, hreach⟩ := h.ready
  have hgrown := prepared_grown (List.append_nil (prepareLog setup)).symm hready
  refine ⟨ready, hgrown, ?_, ?_⟩
  · intro x
    exact selected_iff_of_grown hnames hlog hgrown
  · exact wrappedTree_of_finished (hnames.grow hlog hgrown) hreach h.finished h.sound

/-- There is only one way to wrap a tree. -/
theorem WrappedTree.unique (h : WrappedTree host setup root T fs)
    (h' : WrappedTree host setup root T fs') : fs = fs' := by
  funext path
  by_cases hselected : Selected host setup root T path
  · rw [h.wrapped path hselected, h'.wrapped path hselected]
  · by_cases hbackup : ∃ x, Selected host setup root T x ∧ path = orig x
    · obtain ⟨x, hx, rfl⟩ := hbackup
      rw [h.backup x hx, h'.backup x hx]
    · have hother : ∀ x, Selected host setup root T x → path ≠ orig x :=
        fun x hx heq => hbackup ⟨x, hx, heq⟩
      rw [h.rest path hselected hother, h'.rest path hselected hother]

/-- In a tree that has been wrapped there is nothing left to wrap. -/
theorem Overlay.not_selected {W : Set Path} {setup' : Setup} {x : Path}
    (h : Overlay host root T W fs) (hall : ∀ x, x ∈ W ↔ Selected host setup root T x) :
    ¬ Selected host setup' root fs x := by
  intro hselected
  obtain ⟨hwrappable, hirregular⟩ := selected_iff.mp hselected
  rcases h.cases x with hW | ⟨y, _, rfl⟩ | hsame
  · exact hwrappable.not_isWrapper (h.wrapper x hW)
  · exact hwrappable.ne_orig y rfl
  · obtain ⟨hin, hpkg, hname, content, mode, hfile, hmode, hdescription⟩ := hwrappable
    have hbefore : Wrappable host root T x :=
      ⟨hin, hpkg, hname, content, mode, hsame ▸ hfile, hmode, hdescription⟩
    have hplain : isRegular T (orig x) = false := by
      rw [← Bool.not_eq_true]
      intro hregular
      rw [h.isRegular_of hregular] at hirregular
      cases hirregular
    have hW : x ∈ W := (hall x).mpr (selected_iff.mpr ⟨hbefore, hplain⟩)
    exact hbefore.not_isWrapper (hsame ▸ h.wrapper x hW)

/-- A loop that has nothing to do for any path does nothing. -/
theorem store_of_not_selected (hnone : ∀ x, ¬ Selected host setup root T x)
    {s : FeedLoop.State FileSystem Path Command}
    (hreach : FeedLoop.Reachable (wrapScript host setup root) T s) :
    s.store = T ∧ s.pending = [] ∧ s.failed = false ∧
      ∀ path ∈ s.queue, wrapMatching host root T path := by
  apply hreach.invariant fun s => s.store = T ∧ s.pending = [] ∧ s.failed = false ∧
    ∀ path ∈ s.queue, wrapMatching host root T path
  · exact ⟨rfl, rfl, rfl, fun path hpath => absurd hpath List.not_mem_nil⟩
  · rintro s s' ⟨hstore, hpending, hsound, hqueue⟩ hstep
    cases hstep with
    | report item _ hmatch =>
        refine ⟨hstore, hpending, hsound, ?_⟩
        intro path hpath
        rcases List.mem_append.mp hpath with hold | hnew
        · exact hqueue path hold
        · obtain rfl := List.mem_singleton.mp hnew
          rw [hstore] at hmatch
          exact hmatch
    | finish _ _ => exact ⟨hstore, hpending, hsound, hqueue⟩
    | take item rest _ htaken =>
        have hmem : item ∈ s.queue := htaken ▸ List.mem_cons_self
        have hbody : wrapBody host setup s.store item = [] := by
          by_contra hne
          rw [hstore] at hne
          exact hnone item ⟨hqueue item hmem, hne⟩
        refine ⟨hstore, hbody, hsound, ?_⟩
        intro path hpath
        exact hqueue path (htaken ▸ List.mem_cons_of_mem item hpath)
    | exec command rest store hcommand _ =>
        rw [hpending] at hcommand
        cases hcommand
    | fail command rest hcommand _ =>
        rw [hpending] at hcommand
        cases hcommand

/-- What a log adds is nothing to wrap. -/
theorem Grown.not_selected {places : Set Path} (hgrown : Grown places fs fs')
    (hnone : ∀ x, ¬ Selected host setup root fs x) (x : Path) :
    ¬ Selected host setup root fs' x := by
  intro hselected
  obtain ⟨hwrappable, hirregular⟩ := selected_iff.mp hselected
  apply hnone x
  refine selected_iff.mpr ⟨hgrown.wrappable hwrappable, ?_⟩
  rw [← Bool.not_eq_true]
  intro hregular
  rw [hgrown.isRegular_of hregular] at hirregular
  cases hirregular

end OwnWrappers

section Sample

/-- The characters that the C locale prints. -/
def cLocale : Printing where
  printable := fun _ c _ => decide (32 ≤ c.toNat) && decide (c.toNat < 127)
  control := by
    rintro _ c _ (hlow | hdelete)
    · rw [decide_eq_false (Nat.not_le.mpr hlow), Bool.false_and]
    · rw [hdelete]
      rfl

def quotingHost : Host := { sampleHost with quote := quoteWord cLocale }

/-- A directory with a blank, a quote and a byte that is not printed in its name. -/
def oddRoot : Path := "/it's \x01 here".toList

theorem wrapSucceeds_oddRoot :
    ∃ s, WrapSucceeds quotingHost sampleSetup oddRoot (placed oneFile (alone oddRoot)) s := by
  have hprepared : runAll quotingHost.umask (prepareLog sampleSetup)
      (placed oneFile (alone oddRoot)) = some (withLog (placed oneFile (alone oddRoot))) := rfl
  have hmatch : wrapMatching quotingHost oddRoot (withLog (placed oneFile (alone oddRoot)))
      (below oddRoot ['x']) := ⟨by decide, by decide, _, _, rfl, by decide⟩
  have hsingle : ∀ other, wrapMatching quotingHost oddRoot
      (withLog (placed oneFile (alone oddRoot))) other → other = below oddRoot ['x'] :=
    fun _ hother => eq_of_matching_oneFile (by decide) hother
  have hrun : ∃ s, FeedLoop.Reachable (wrapScript quotingHost sampleSetup oddRoot)
      (withLog (placed oneFile (alone oddRoot))) s ∧ s.Finished ∧ s.failed = false ∧
        s.store = _ ∧ s.taken = _ :=
    FeedLoop.reachable_of_single _ hmatch hsingle rfl
  obtain ⟨s, hreach, hfinished, hsound, _, _⟩ := hrun
  exact ⟨s, ⟨_, hprepared, hreach⟩, hfinished, hsound⟩

end Sample

end Icflow.Wrap
