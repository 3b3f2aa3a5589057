import Icflow.Collect.Placement

set_option autoImplicit false

/-!
# Whose pairs are published

The tool merges into the result files it finds, whichever build they are from.  Every
step of an attempt keeps the pairs of the tree genuine, and so does a build that
changes no executable whose result files hold pairs.
-/

namespace Icflow.Collect

open Icflow.Foundation
open Icflow.Wrap
open Icflow.PinTool

/-! ## Results that are saved -/

section Testing

variable {host : Host} {root : Path} {T fs fs' : FileSystem} {W : Set Path}
  {observed observed' : Observations} {path : Path} {kind : Bool}

theorem HasElf.withResult (text : List Char) (mode : Nat)
    (hkind : (resultKind path).isSome = true) {original : Path} {bytes : List Char}
    (h : HasElf T original bytes) : HasElf (withResult T path text mode) original bytes := by
  obtain ⟨x, mode', horiginal, hname, hxkind, hfile⟩ := h
  have hx : x ≠ path := by
    rintro rfl
    rw [hxkind] at hkind
    cases hkind
  refine ⟨x, mode', horiginal, hname, hxkind, ?_⟩
  rw [withResult_orig hkind, withResult_of_ne hx]
  exact hfile

theorem Genuine.withResult {text : List Char} (mode : Nat) (h : Genuine T observed)
    (hkind : resultKind path = some kind)
    (hnew : ∀ edge ∈ pairsOf (some text),
      ∃ bytes, HasElf T (baseOf path) bytes ∧ observed bytes kind edge) :
    Genuine (withResult T path text mode) observed := by
  have hsome : (resultKind path).isSome = true := by
    rw [hkind]
    rfl
  intro other kind' content mode' hother hfile edge hedge
  by_cases heq : other = path
  · subst heq
    rw [withResult_self] at hfile
    obtain ⟨rfl, _⟩ := Node.file.inj (Option.some.inj hfile)
    obtain rfl : kind = kind' := Option.some.inj (hkind.symm.trans hother)
    obtain ⟨bytes, helf, hobserved⟩ := hnew edge hedge
    exact ⟨bytes, helf.withResult text mode hsome, hobserved⟩
  · rw [withResult_of_ne heq] at hfile
    obtain ⟨bytes, helf, hobserved⟩ := h other kind' content mode' hother hfile edge hedge
    exact ⟨bytes, helf.withResult text mode hsome, hobserved⟩

theorem Genuine.mono (h : Genuine T observed)
    (hle : ∀ bytes kind edge, observed bytes kind edge → observed' bytes kind edge) :
    Genuine T observed' := by
  intro path kind content mode hkind hfile edge hedge
  obtain ⟨bytes, helf, hobserved⟩ := h path kind content mode hkind hfile edge hedge
  exact ⟨bytes, helf, hle bytes kind edge hobserved⟩

/-- A ready tree with genuine results, some of its files wrapped. -/
structure Settled (host : Host) (root : Path) (T : FileSystem) (W : Set Path) (fs : FileSystem)
    (observed : Observations) : Prop where
  ready : Ready host root T
  overlay : Overlay host root T W fs
  genuine : Genuine T observed

/-- Saving pairs that the executable has justifies. -/
theorem Settled.saved (h : Settled host root T W fs observed) {allowed : Set (ADDRINT × ADDRINT)}
    (hkind : resultKind path = some kind) (hplain : Plain T path)
    (hallowed : ∀ edge ∈ allowed,
      ∃ bytes, HasElf T (baseOf path) bytes ∧ observed bytes kind edge)
    (hsaved : SavedAt path allowed fs fs') :
    ∃ T', Settled host root T' W fs' observed ∧
      (∀ original bytes, HasElf T original bytes → HasElf T' original bytes) ∧
      ∀ other, other ≠ path → T' other = T other := by
  have hsome : (resultKind path).isSome = true := by
    rw [hkind]
    rfl
  rcases hsaved with rfl | ⟨text, mode, htext, rfl⟩
  · exact ⟨T, h, fun _ _ helf => helf, fun _ _ => rfl⟩
  · refine ⟨withResult T path text mode, ⟨?_, ?_, ?_⟩, ?_, ?_⟩
    · exact h.ready.update hsome hplain htext
    · exact h.ready.overlay_update h.overlay hsome htext
    · exact h.genuine.withResult mode hkind fun edge hedge => hallowed edge (htext.pairs hedge)
    · exact fun _ _ helf => helf.withResult text mode hsome
    · exact fun _ hne => withResult_of_ne hne

/-- The bytes that a wrapper executes are those of the executable. -/
theorem Settled.hasElf (h : Settled host root T W fs observed) {x : Path} (hx : x ∈ W)
    {bytes : List Char} {mode : Nat} (hbinary : fs (orig x) = some (.file bytes mode)) :
    HasElf T (orig x) bytes := by
  have hwrappable := h.overlay.wrappable x hx
  have hname : ".orig".toList.isSuffixOf x = false := by
    have hskipped := hwrappable.2.2.1
    simp only [skippedName, Bool.or_eq_false_iff] at hskipped
    exact hskipped.1.1
  refine ⟨x, mode, rfl, hname, h.ready.names x hwrappable, Or.inr ⟨h.overlay.free x hx, ?_⟩⟩
  rw [← h.overlay.backup x hx]
  exact hbinary

/-- The result files of an executable are in the tree what they are in the overlay. -/
theorem Settled.result_eq (h : Settled host root T W fs observed)
    (hkind : (resultKind path).isSome = true) : fs path = T path := by
  have hW : path ∉ W := by
    intro hW
    rw [h.ready.names path (h.overlay.wrappable path hW)] at hkind
    cases hkind
  exact h.overlay.rest path hW fun x _ => ne_orig_of_resultKind hkind x

/-- One run of a wrapped executable. -/
theorem Settled.run (h : Settled host root T W fs observed) {x : Path} {setup : Setup}
    {wrapperMode mode : Nat} {bytes : List Char} (run : Run) (ending : Ending)
    (hin : inTree root x = true)
    (hwrapper : fs x = some (.file (wrapperText host setup (orig x)) wrapperMode))
    (hbinary : fs (orig x) = some (.file bytes mode)) :
    ∃ T', Settled host root T' W (toolRun host.umask run ending (orig x) fs)
      (observed.add bytes run) := by
  have hx : x ∈ W := by
    obtain ⟨content, mode', hfile, hline, _⟩ :=
      isWrapper_wrapperText host setup (orig x) wrapperMode
    exact h.overlay.mem_of_marker h.ready.marker hin (hwrapper.trans hfile) hline
  have hwrappable := h.overlay.wrappable x hx
  have hcanonical := h.ready.canonical x hwrappable
  have hkind := resultKind_resultPath hcanonical
  have hsome : ∀ kind, (resultKind (resultPath kind (orig x))).isSome = true := by
    intro kind
    rw [hkind kind]
    rfl
  have hplain : ∀ kind, Plain fs (resultPath kind (orig x)) := by
    intro kind
    rw [Plain, h.result_eq (hsome kind)]
    exact h.ready.plain x kind hwrappable
  have helf : HasElf T (orig x) bytes := h.hasElf hx hbinary
  have hallowed : ∀ kind, ∀ edge ∈ allowedPairs fs run (orig x) kind,
      ∃ bytes', HasElf T (baseOf (resultPath kind (orig x))) bytes' ∧
        (observed.add bytes run) bytes' kind edge := by
    rintro kind edge (hrun | hfound)
    · rw [baseOf_resultPath hcanonical]
      exact ⟨bytes, helf, Or.inr ⟨rfl, hrun⟩⟩
    · rcases hplain kind with hnone | ⟨content, mode', hfile⟩
      · rw [readRegular_none hnone, pairsOf_none] at hfound
        exact hfound.elim
      · rw [readRegular_file hfile] at hfound
        rw [h.result_eq (hsome kind)] at hfile
        obtain ⟨bytes', helf', hobserved⟩ :=
          h.genuine _ kind content mode' (hkind kind) hfile edge hfound
        exact ⟨bytes', helf', Or.inl hobserved⟩
  have hadded : Settled host root T W fs (observed.add bytes run) :=
    ⟨h.ready, h.overlay, h.genuine.mono fun _ _ _ hobserved => Or.inl hobserved⟩
  obtain ⟨middle, hjump, hcall⟩ := toolRun_saves host.umask run ending hplain
  obtain ⟨T₁, hmiddle, hmono, hother⟩ :=
    hadded.saved (hkind false) (h.ready.plain x false hwrappable) (hallowed false) hjump
  have hcallPlain : Plain T₁ (resultPath true (orig x)) := by
    rw [Plain, hother _ (resultPath_ne (orig x))]
    exact h.ready.plain x true hwrappable
  obtain ⟨T₂, hend, _, _⟩ := hmiddle.saved (hkind true) hcallPlain
    (fun edge hedge =>
      (hallowed true edge hedge).imp fun _ hjustified => ⟨hmono _ _ hjustified.1, hjustified.2⟩)
    hcall
  exact ⟨T₂, hend⟩

/-! ## Attempts -/

variable {setup : Setup} {tree : FileSystem}

theorem TestPhase.settled (h : TestPhase host root setup tree observed fs observed')
    (hstart : Settled host root T W tree observed) :
    ∃ T' W', Settled host root T' W' fs observed' := by
  induction h with
  | wrapped fs hrun =>
      obtain ⟨s, hreach, hfinished, rfl⟩ := hrun
      have hclear := clear_of_namesFree (hstart.ready.free.names _) hstart.overlay hreach
      have hprogress := (WrapInvariant.of_reachable hstart.overlay hreach hclear).progress
      rw [hfinished.pending] at hprogress
      obtain ⟨W', hoverlay⟩ := hprogress.overlay
      exact ⟨T, W', hstart.ready, hoverlay, hstart.genuine⟩
  | run fs observed' x wrapperSetup wrapperMode mode bytes run ending _ hin hwrapper hbinary ih =>
      obtain ⟨T', W', hsettled⟩ := ih
      obtain ⟨T'', hrun⟩ := hsettled.run run ending hin hwrapper hbinary
      exact ⟨T'', W', hrun⟩

/-- However far the instrumented tests get, the pairs in the tree are genuine. -/
theorem Instrumented.genuine (h : Instrumented host root setup tree observed fs observed')
    (hstart : Settled host root T W tree observed) : Genuine fs observed' := by
  cases h with
  | whileWrapping s hreach =>
      have hclear := clear_of_namesFree (hstart.ready.free.names _) hstart.overlay hreach
      have hinv := WrapInvariant.of_reachable hstart.overlay hreach hclear
      exact hstart.genuine.placed (placed_wrapProgress hstart.ready hinv.progress)
  | whileTesting _ _ htest =>
      obtain ⟨T', W', hsettled⟩ := htest.settled hstart
      exact hsettled.genuine.placed (placed_overlay hsettled.overlay)
  | whileRestoring middle _ s htest hreach =>
      obtain ⟨T', W', hsettled⟩ := htest.settled hstart
      have hclear := restoreClear_of_collisionFree hsettled.ready.marker hsettled.ready.free
        hsettled.overlay hreach
      obtain ⟨W'', hinv⟩ :=
        RestoreInvariant.of_reachable hsettled.ready.marker hsettled.overlay hreach hclear
      exact hsettled.genuine.placed (placed_restoreProgress hsettled.ready hinv.progress)

/-- A build that changes no executable with pairs keeps the pairs genuine. -/
theorem Genuine.rebuilt (h : Genuine fs observed) (hbuilt : Rebuilt fs tree)
    (hkept : KeepsElf fs tree) : Genuine tree observed := by
  intro path kind content mode hkind hfile edge hedge
  have hsome : (resultKind path).isSome = true := by
    rw [hkind]
    rfl
  rcases hbuilt path hsome with hsame | hremoved
  · obtain ⟨bytes, helf, hobserved⟩ :=
      h path kind content mode hkind (hsame.symm.trans hfile) edge hedge
    exact ⟨bytes, hkept path content mode hsome hfile ⟨edge, hedge⟩ bytes helf, hobserved⟩
  · rw [hremoved] at hfile
    cases hfile

theorem SettledAttempts.genuine (h : SettledAttempts host root fs observed) :
    Genuine fs observed := by
  induction h with
  | start =>
      intro path kind content mode _ hfile
      cases hfile
  | attempt setup fs tree fs' T W observed observed' _ hbuilt hkept hready hoverlay hrun ih =>
      have htree := ih.rebuilt hbuilt hkept
      exact hrun.genuine ⟨hready, hoverlay, htree.of_overlay hoverlay hready⟩

end Testing

/-- A run with one call. -/
def callRun (target : ADDRINT) : Run where
  textSectionBase := 0x1000
  textSectionHigh := 0x4000
  events := [⟨0x1000, target, true⟩]
  jumpOrder := .ascending
  callOrder := .ascending
  access := ⟨fun _ => true, fun _ => true⟩

/-- The two builds of the executable. -/
def firstBytes : List Char := ['\x7f', 'E', 'L', 'F']

def secondBytes : List Char := ['\x7f', 'E', 'L', 'F', '2']

/-- The run of the first build. -/
def firstObserved : Observations := Observations.none.add firstBytes (callRun 0x2000)

/-- The pairs of the first build. -/
def firstCalls : EdgeMap := EdgeMap.empty.insertEdge 0x1000 0x2000

/-- The results of the first build. -/
def withFirstResults (fs : FileSystem) : FileSystem :=
  withResult
    (withResult fs (resultPath false (orig samplePath)) (edgesText .ascending .empty) 0o644)
    (resultPath true (orig samplePath)) (edgesText .ascending firstCalls) 0o644

/-- The second build, with the results of the first. -/
def rebuiltTree : FileSystem :=
  withFirstResults (Function.update (sampleTree none) samplePath (some (.file secondBytes 0o755)))

theorem sampleTree_ready : Ready sampleHost ['/', 'r'] (sampleTree none) := by
  have hpath : ∀ x, Wrappable sampleHost ['/', 'r'] (sampleTree none) x → x = samplePath := by
    rintro x ⟨_, _, _, content, mode, hfile, _⟩
    exact (sampleTree_file none_ne_file hfile).1
  refine ⟨sampleTree_unmarked none none_ne_file _, sampleTree_collisionFree, ?_, ?_, ?_⟩
  · intro x hx
    rw [hpath x hx, IsCanonical]
    decide
  · intro x hx
    rw [hpath x hx]
    decide
  · intro x kind hx
    left
    rw [hpath x hx]
    cases kind <;> decide

theorem sampleTree_noResult {path : Path} (hkind : (resultKind path).isSome = true) :
    sampleTree none path = none := by
  have hne : ∀ other, resultKind other = none → path ≠ other := by
    rintro other hother rfl
    rw [hother] at hkind
    cases hkind
  rw [sampleTree, if_neg (hne samplePath (by decide)),
    if_neg (hne (orig samplePath) (by decide)), if_neg (hne ['/', 'r'] (by decide))]

/-- The first attempt, up to the end of its run. -/
theorem testPhase_sampleTree :
    ∃ fs, TestPhase sampleHost ['/', 'r'] sampleSetup (sampleTree none) .none fs firstObserved ∧
      fs (resultPath false (orig samplePath)) =
        some (.file (edgesText .ascending .empty) 0o644) ∧
      fs (resultPath true (orig samplePath)) =
        some (.file (edgesText .ascending firstCalls) 0o644) ∧
      fs (orig samplePath) = some (.file firstBytes 0o755) :=
  ⟨_, .run _ _ samplePath sampleSetup _ _ _ (callRun 0x2000) .complete
    (.wrapped _ (completes_sampleTree none none_ne_file rfl)) (by decide) rfl rfl, rfl, rfl, rfl⟩

/-- The sample tree with its file wrapped. -/
def wrappedSample : FileSystem :=
  Function.update (Function.update (sampleTree none) (orig samplePath) (some (.file firstBytes 0o755)))
    samplePath (some (.file (wrapperText sampleHost sampleSetup (orig samplePath)) 0o755))

theorem overlay_wrappedSample :
    Overlay sampleHost ['/', 'r'] (sampleTree none) {samplePath} wrappedSample where
  wrapper := by
    rintro x rfl
    exact isWrapper_wrapperText _ _ _ _
  backup := by
    rintro x rfl
    rfl
  rest := by
    intro path hself horig
    rw [wrappedSample, Function.update_of_ne hself, Function.update_of_ne (horig samplePath rfl)]
  wrappable := by
    rintro x rfl
    exact ⟨by decide, by decide, by decide, _, _, rfl, by decide, by decide⟩
  free := by
    rintro x rfl
    rfl

theorem withFirstResults_of_ne (fs : FileSystem) {path : Path}
    (hjump : path ≠ resultPath false (orig samplePath))
    (hcall : path ≠ resultPath true (orig samplePath)) : withFirstResults fs path = fs path := by
  rw [withFirstResults, withResult_of_ne hcall, withResult_of_ne hjump]

/-- A build that keeps the results and has no others. -/
theorem rebuilt_withFirstResults {fs tree : FileSystem}
    (hjumps : fs (resultPath false (orig samplePath)) =
      some (.file (edgesText .ascending .empty) 0o644))
    (hcalls : fs (resultPath true (orig samplePath)) =
      some (.file (edgesText .ascending firstCalls) 0o644))
    (hnone : ∀ path, (resultKind path).isSome = true → tree path = none) :
    Rebuilt fs (withFirstResults tree) := by
  intro path hkind
  by_cases hcall : path = resultPath true (orig samplePath)
  · left
    rw [hcall, hcalls, withFirstResults, withResult_self]
  · by_cases hjump : path = resultPath false (orig samplePath)
    · left
      rw [hjump, hjumps]
      rfl
    · right
      rw [withFirstResults_of_ne tree hjump hcall, hnone path hkind]

theorem settled_withFirstResults :
    Ready sampleHost ['/', 'r'] (withFirstResults (sampleTree none)) ∧
      Overlay sampleHost ['/', 'r'] (withFirstResults (sampleTree none)) {samplePath}
        (withFirstResults wrappedSample) := by
  have htext : ∀ m, ResultText Set.univ (edgesText .ascending m) := by
    intro m
    have htaken : ResultText Set.univ ((edgesText .ascending m).take (edgesText .ascending m).length) :=
      resultText_take .ascending (fun _ _ => trivial) _
    rwa [List.take_length] at htaken
  have hjump : (resultKind (resultPath false (orig samplePath))).isSome = true := by decide
  have hcall : (resultKind (resultPath true (orig samplePath))).isSome = true := by decide
  have hready : Ready sampleHost ['/', 'r'] (withResult (sampleTree none) _ _ 0o644) :=
    sampleTree_ready.update hjump (Or.inl rfl) (htext .empty)
  refine ⟨hready.update hcall (Or.inl rfl) (htext firstCalls), ?_⟩
  apply hready.overlay_update _ hcall (htext firstCalls)
  exact sampleTree_ready.overlay_update overlay_wrappedSample hjump (htext .empty)

theorem withFirstResults_wrappedSample_file {path : Path} {content : List Char} {mode : Nat}
    (h : withFirstResults wrappedSample path = some (.file content mode)) :
    path = samplePath ∨ path = orig samplePath ∨ mode = 0o644 := by
  simp only [withFirstResults, withResult, wrappedSample, Function.update_apply] at h
  split_ifs at h with hcall hjump hself horig
  · exact Or.inr (Or.inr (Node.file.inj (Option.some.inj h)).2.symm)
  · exact Or.inr (Or.inr (Node.file.inj (Option.some.inj h)).2.symm)
  · exact Or.inl hself
  · exact Or.inr (Or.inl horig)
  · exact Or.inl (sampleTree_file none_ne_file h).1

/-- The file is still wrapped, so there is nothing to wrap. -/
theorem completes_withFirstResults :
    FeedLoop.Completes (wrapScript sampleHost sampleSetup ['/', 'r'])
      (withFirstResults wrappedSample) (withFirstResults wrappedSample) := by
  apply FeedLoop.completes_of_idle [samplePath, orig samplePath]
  · intro path
    rw [List.mem_cons, List.mem_singleton]
    constructor
    · rintro ⟨_, _, content, mode, hfile, hmode⟩
      rcases withFirstResults_wrappedSample_file hfile with hself | horig | rfl
      · exact Or.inl hself
      · exact Or.inr horig
      · exact absurd hmode (by decide)
    · rintro (rfl | rfl)
      · exact ⟨by decide, by decide, _, _, rfl, by decide⟩
      · exact ⟨by decide, by decide, _, _, rfl, by decide⟩
  · rw [List.forall_mem_cons, List.forall_mem_singleton]
    exact ⟨rfl, rfl⟩

/-- The second attempt on the same build. -/
theorem testPhase_withFirstResults :
    ∃ fs, TestPhase sampleHost ['/', 'r'] sampleSetup (withFirstResults wrappedSample) firstObserved
        fs (firstObserved.add firstBytes (callRun 0x3000)) ∧
      fs (resultPath true (orig samplePath)) =
        some (.file (edgesText .ascending
          ((EdgeMap.empty.insertEdge 0x1000 0x3000).insertEdge 0x1000 0x2000)) 0o644) :=
  ⟨_, .run _ _ samplePath sampleSetup _ _ _ (callRun 0x3000) .complete
    (.wrapped _ completes_withFirstResults) (by decide) rfl rfl, rfl⟩

theorem rebuiltTree_file {path : Path} {content : List Char} {mode : Nat}
    (h : rebuiltTree path = some (.file content mode)) : path = samplePath ∨ mode = 0o644 := by
  simp only [rebuiltTree, withFirstResults, withResult, Function.update_apply] at h
  split_ifs at h with hcall hjump hself
  · exact Or.inr (Node.file.inj (Option.some.inj h)).2.symm
  · exact Or.inr (Node.file.inj (Option.some.inj h)).2.symm
  · exact Or.inl hself
  · exact Or.inl (sampleTree_file none_ne_file h).1

theorem completes_rebuiltTree {fs : FileSystem}
    (hrun : (wrapBody sampleHost sampleSetup rebuiltTree samplePath).foldlM
      (fun fs command => command.exec sampleHost.umask fs) rebuiltTree = some fs) :
    FeedLoop.Completes (wrapScript sampleHost sampleSetup ['/', 'r']) rebuiltTree fs := by
  apply FeedLoop.completes_of_single samplePath ?_ ?_ hrun
  · exact ⟨by decide, by decide, _, _, rfl, by decide⟩
  · rintro other ⟨_, _, content, mode, hfile, hmode⟩
    rcases rebuiltTree_file hfile with hself | rfl
    · exact hself
    · exact absurd hmode (by decide)

/-- The second attempt, up to the end of its run: the tool has merged. -/
theorem testPhase_rebuiltTree :
    ∃ fs, TestPhase sampleHost ['/', 'r'] sampleSetup rebuiltTree firstObserved fs
        (firstObserved.add secondBytes (callRun 0x3000)) ∧
      fs (orig samplePath) = some (.file secondBytes 0o755) ∧
      fs (resultPath true (orig samplePath)) =
        some (.file (edgesText .ascending
          ((EdgeMap.empty.insertEdge 0x1000 0x3000).insertEdge 0x1000 0x2000)) 0o644) :=
  ⟨_, .run _ _ samplePath sampleSetup _ _ _ (callRun 0x3000) .complete
    (.wrapped _ (completes_rebuiltTree rfl)) (by decide) rfl rfl, rfl, rfl⟩

end Icflow.Collect
