import Icflow.PinTool.LockProtocol

set_option autoImplicit false

/-!
# Writers exclude each other

Interleavings of `SaveEdgesAsJSON` in which nobody is killed.  The process that took the
lock last is the only one that can be between its truncating open and its close, and
from its close on the file is its document (`Ordered`).
-/

namespace Icflow.PinTool

section Exclusion

variable {n : Nat}

/-- Every process is before the constructor of `FileLock`. -/
def SaveState.saving (file : Option (List Char)) (edgeMap : Fin n → EdgeMap) : SaveState n where
  file := file
  edgeMap := edgeMap
  phase := fun _ => .loaded

/-- Follow one event to the process that acquired the lock last. -/
def lockerStep (last : Option (Fin n)) : SaveEvent n → Option (Fin n)
  | .lock p => some p
  | .load _ | .openLock _ | .truncate _ | .write .. | .close _ | .unlock _ | .destroy _
  | .kill _ => last

/-- The process that acquired the lock last. -/
def lastLocker (trace : List (SaveEvent n)) : Option (Fin n) := trace.foldl lockerStep none

/-- No chunk of a process is written between the truncating open and the close of another
one. -/
def ChunksApart (trace : List (SaveEvent n)) : Prop :=
  ∀ before middle after p q length,
    trace = before ++ .truncate p :: (middle ++ .write q length :: after) → q ≠ p →
      .close p ∈ middle

/-- The stream is closed. -/
def SavePhase.pastClose : SavePhase → Bool
  | .closed | .unlocked | .finished => true
  | .loading | .loaded | .opened | .locked | .writing _ | .killed | .aborted => false

/-- What holds of the last process to take the lock, and of the others. -/
structure Ordered (order : Fin n → TargetOrder) (edgeMap : Fin n → EdgeMap)
    (last : Option (Fin n)) (h : History n) (s : SaveState n) : Prop where
  edgeMap : s.edgeMap = edgeMap
  started : ∀ p, s.phase p ≠ .loading
  waiting : last = none → ∀ p, s.phase p = .loaded ∨ s.phase p = .opened
  others : ∀ p, last ≠ some p → (s.phase p).holdsLock = false
  holder : ∀ p, last = some p → (s.phase p).holdsLock = true ∨ (s.phase p).pastClose = true
  saved : ∀ p, last = some p → (s.phase p).pastClose = true →
    h.touch = .truncated p (s.document order p).length

variable {order : Fin n → TargetOrder} {edgeMap : Fin n → EdgeMap} {last : Option (Fin n)}
  {initial : Option (List Char)} {h : History n} {s s' : SaveState n}

theorem ordered_saving (order : Fin n → TargetOrder) (file : Option (List Char))
    (edgeMap : Fin n → EdgeMap) :
    Ordered order edgeMap none (.start file) (.saving file edgeMap) where
  edgeMap := rfl
  started := by
    intro p hp
    cases hp
  waiting := fun _ _ => Or.inl rfl
  others := fun _ _ => rfl
  holder := by
    intro p hp
    cases hp
  saved := by
    intro p hp
    cases hp

/-- The holder of the lock is the process that acquired it last. -/
theorem Ordered.last_of_holdsLock (ho : Ordered order edgeMap last h s) {p : Fin n}
    (hp : (s.phase p).holdsLock = true) : last = some p := by
  by_contra hlast
  rw [ho.others p hlast] at hp
  cases hp

/-- Moving a process on while the last one to take the lock stays the same. -/
theorem Ordered.enter (ho : Ordered order edgeMap last h s) {p : Fin n} {phase : SavePhase}
    {h' : History n} {file : Option (List Char)} (hloading : phase ≠ .loading)
    (hwaiting : last = none → phase = .loaded ∨ phase = .opened)
    (hothers : last ≠ some p → phase.holdsLock = false)
    (hholder : last = some p → phase.holdsLock = true ∨ phase.pastClose = true)
    (hsaved : last = some p → phase.pastClose = true →
      h'.touch = .truncated p (s.document order p).length)
    (hkept : ∀ q, q ≠ p → last = some q → (s.phase q).pastClose = true → h'.touch = h.touch) :
    Ordered order edgeMap last h' ({ s with file := file }.enter p phase) where
  edgeMap := ho.edgeMap
  started := by
    intro q
    by_cases hqp : q = p
    · rw [hqp, SaveState.enter_phase_self]
      exact hloading
    · rw [SaveState.enter_phase_of_ne _ hqp]
      exact ho.started q
  waiting := by
    intro hlast q
    by_cases hqp : q = p
    · rw [hqp, SaveState.enter_phase_self]
      exact hwaiting hlast
    · rw [SaveState.enter_phase_of_ne _ hqp]
      exact ho.waiting hlast q
  others := by
    intro q hlast
    by_cases hqp : q = p
    · subst hqp
      rw [SaveState.enter_phase_self]
      exact hothers hlast
    · rw [SaveState.enter_phase_of_ne _ hqp]
      exact ho.others q hlast
  holder := by
    intro q hlast
    by_cases hqp : q = p
    · subst hqp
      rw [SaveState.enter_phase_self]
      exact hholder hlast
    · rw [SaveState.enter_phase_of_ne _ hqp]
      exact ho.holder q hlast
  saved := by
    intro q hlast hpast
    by_cases hqp : q = p
    · subst hqp
      rw [SaveState.enter_phase_self] at hpast
      exact hsaved hlast hpast
    · rw [SaveState.enter_phase_of_ne _ hqp] at hpast
      rw [hkept q hqp hlast hpast]
      exact ho.saved q hlast hpast

/-- Moving the holder of the lock on. -/
theorem Ordered.advance (ho : Ordered order edgeMap last h s) {p : Fin n} {phase : SavePhase}
    {h' : History n} {file : Option (List Char)} (hp : (s.phase p).holdsLock = true)
    (hloading : phase ≠ .loading) (hholder : phase.holdsLock = true ∨ phase.pastClose = true)
    (hsaved : phase.pastClose = true → h'.touch = .truncated p (s.document order p).length) :
    Ordered order edgeMap last h' ({ s with file := file }.enter p phase) := by
  have hlast : last = some p := ho.last_of_holdsLock hp
  refine ho.enter hloading ?_ (fun h => absurd hlast h) (fun _ => hholder) (fun _ => hsaved) ?_
  · intro hnone
    rw [hlast] at hnone
    cases hnone
  · intro q hqp hq
    exact absurd (Option.some.inj (hq.symm.trans hlast)) hqp

/-- One step in which nobody is killed. -/
theorem Ordered.step (ho : Ordered order edgeMap last h s) (ht : Tracked order initial h s)
    {event : SaveEvent n} (hkill : ∀ p, event ≠ .kill p)
    (hstep : saveStep order s event = some s') :
    Ordered order edgeMap (lockerStep last event) (h.step event) s' := by
  cases saveStep_move hstep with
  | load p _ hphase _ => exact absurd hphase (ho.started p)
  | abort p hphase => exact absurd hphase (ho.started p)
  | openLock p hphase =>
      have hlast : last ≠ some p := by
        intro hlast
        rcases ho.holder p hlast with hholds | hpast
        · rw [hphase] at hholds
          cases hholds
        · rw [hphase] at hpast
          cases hpast
      refine ho.enter (by simp) (fun _ => Or.inr rfl) (fun _ => rfl) (fun h => absurd h hlast)
        (fun h => absurd h hlast) ?_
      intro q _ hq hpast
      have htouch := ho.saved q hq hpast
      simp [History.step, htouch]
  | lock p hphase hfree =>
      refine ⟨ho.edgeMap, ?_, (by intro h; cases h), ?_, ?_, ?_⟩
      · intro q
        by_cases hqp : q = p
        · rw [hqp, SaveState.enter_phase_self]
          simp
        · rw [SaveState.enter_phase_of_ne _ hqp]
          exact ho.started q
      · intro q hq
        have hqp : q ≠ p := fun heq => hq (heq ▸ rfl)
        rw [SaveState.enter_phase_of_ne _ hqp]
        exact hfree q
      · intro q hq
        obtain rfl := Option.some.inj hq
        rw [SaveState.enter_phase_self]
        exact Or.inl rfl
      · intro q hq hpast
        obtain rfl := Option.some.inj hq
        rw [SaveState.enter_phase_self] at hpast
        cases hpast
  | truncate p hphase =>
      exact ho.advance (by rw [hphase]; rfl) (by simp) (Or.inl rfl) fun h => by cases h
  | write p count length hphase _ _ =>
      exact ho.advance (by rw [hphase]; rfl) (by simp) (Or.inl rfl) fun h => by cases h
  | close p hphase =>
      exact ho.advance (by rw [hphase]; rfl) (by simp) (Or.inl rfl) fun _ => ht.writing p _ hphase
  | unlock p hphase =>
      exact ho.advance (by rw [hphase]; rfl) (by simp) (Or.inr rfl) fun _ => ht.closed p hphase
  | destroy p hphase =>
      refine ho.enter (by simp) ?_ (fun _ => rfl) (fun _ => Or.inr rfl) ?_ fun _ _ _ _ => rfl
      · intro hlast
        rcases ho.waiting hlast p with hp | hp <;> rw [hphase] at hp <;> cases hp
      · intro hlast _
        exact ho.saved p hlast (by rw [hphase]; rfl)
  | kill p _ => exact absurd rfl (hkill p)

theorem ordered_run (trace : List (SaveEvent n)) (hkill : ∀ p, .kill p ∉ trace) :
    ∀ {last : Option (Fin n)} {h : History n} {s final : SaveState n},
      Ordered order edgeMap last h s → Tracked order initial h s →
      saveRun order s trace = some final →
      Ordered order edgeMap (trace.foldl lockerStep last) (trace.foldl History.step h) final := by
  induction trace with
  | nil =>
      intro last h s final ho _ hrun
      cases hrun
      exact ho
  | cons event trace ih =>
      intro last h s final ho ht hrun
      unfold saveRun at hrun
      split at hrun
      · rename_i s' hstep
        have hevent : ∀ p, event ≠ .kill p := by
          rintro p rfl
          exact hkill p List.mem_cons_self
        have hrest : ∀ p, .kill p ∉ trace := fun p hp => hkill p (List.mem_cons_of_mem event hp)
        exact ih hrest (ho.step ht hevent hstep) (ht.step hstep) hrun
      · cases hrun

/-! ## Chunks -/

/-- A process stays in its stream until it closes it or is killed. -/
theorem writing_step {p : Fin n} {event : SaveEvent n} (hclose : event ≠ .close p)
    (hkill : event ≠ .kill p) (hp : ∃ count, s.phase p = .writing count)
    (hstep : saveStep order s event = some s') : ∃ count, s'.phase p = .writing count := by
  obtain ⟨count, hp⟩ := hp
  have hother : ∀ {q : Fin n} {phase : SavePhase} {t : SaveState n}, s.phase q ≠ .writing count →
      t.phase = s.phase → ∃ count, (t.enter q phase).phase p = .writing count := by
    intro q phase t hq ht
    have hpq : p ≠ q := by
      rintro rfl
      exact hq hp
    rw [SaveState.enter_phase_of_ne _ hpq, ht]
    exact ⟨count, hp⟩
  cases saveStep_move hstep with
  | load q _ hphase _ => exact hother (by rw [hphase]; simp) rfl
  | abort q hphase => exact hother (by rw [hphase]; simp) rfl
  | openLock q hphase => exact hother (by rw [hphase]; simp) rfl
  | lock q hphase _ => exact hother (by rw [hphase]; simp) rfl
  | truncate q hphase => exact hother (by rw [hphase]; simp) rfl
  | write q count' length _ _ _ =>
      by_cases hpq : p = q
      · rw [hpq, SaveState.enter_phase_self]
        exact ⟨_, rfl⟩
      · rw [SaveState.enter_phase_of_ne _ hpq]
        exact ⟨count, hp⟩
  | close q hphase =>
      have hpq : p ≠ q := fun heq => hclose (heq ▸ rfl)
      rw [SaveState.enter_phase_of_ne _ hpq]
      exact ⟨count, hp⟩
  | unlock q hphase => exact hother (by rw [hphase]; simp) rfl
  | destroy q hphase => exact hother (by rw [hphase]; simp) rfl
  | kill q _ =>
      have hpq : p ≠ q := fun heq => hkill (heq ▸ rfl)
      rw [SaveState.enter_phase_of_ne _ hpq]
      exact ⟨count, hp⟩

theorem writing_run {p : Fin n} (trace : List (SaveEvent n)) (hclose : .close p ∉ trace)
    (hkill : .kill p ∉ trace) :
    ∀ {s final : SaveState n}, (∃ count, s.phase p = .writing count) →
      saveRun order s trace = some final → ∃ count, final.phase p = .writing count := by
  induction trace with
  | nil =>
      intro s final hp hrun
      cases hrun
      exact hp
  | cons event trace ih =>
      intro s final hp hrun
      unfold saveRun at hrun
      split at hrun
      · rename_i s' hstep
        rw [List.mem_cons, not_or] at hclose hkill
        exact ih hclose.2 hkill.2
          (writing_step (Ne.symm hclose.1) (Ne.symm hkill.1) hp hstep) hrun
      · cases hrun

theorem chunksApart_of_run {trace : List (SaveEvent n)} {final : SaveState n}
    (ht : Tracked order initial h s) (hkill : ∀ p, .kill p ∉ trace)
    (hrun : saveRun order s trace = some final) : ChunksApart trace := by
  rintro before middle after p q length rfl hqp
  by_contra hclose
  rw [saveRun_append] at hrun
  obtain ⟨s₁, hbefore, hrun⟩ := Option.bind_eq_some_iff.mp hrun
  obtain ⟨s₂, htruncate, hrun⟩ := saveRun_cons hrun
  rw [saveRun_append] at hrun
  obtain ⟨s₃, hmiddle, hrun⟩ := Option.bind_eq_some_iff.mp hrun
  obtain ⟨s₄, hwrite, _⟩ := saveRun_cons hrun
  have ht₃ := tracked_run middle ((tracked_run before ht hbefore).step htruncate) hmiddle
  have hopen : ∃ count, s₂.phase p = .writing count := by
    cases saveStep_move htruncate with
    | truncate p hphase => exact ⟨0, SaveState.enter_phase_self _ _ _⟩
  have hkillMiddle : .kill p ∉ middle := by
    intro hmem
    exact hkill p (List.mem_append_right before (List.mem_cons_of_mem _
      (List.mem_append_left _ hmem)))
  obtain ⟨count, hp⟩ := writing_run middle hclose hkillMiddle hopen hmiddle
  cases saveStep_move hwrite with
  | write q count' length hphase _ _ =>
      apply hqp
      exact ht₃.exclusive q p (by rw [hphase]; rfl) (by rw [hp]; rfl)

end Exclusion

/-- Writers exclude each other: no chunk of one process falls between the truncating open
and the close of another, and when all have finished the file is the document of the
process that acquired the lock last. -/
theorem writers_exclude {n : Nat} (hn : 0 < n) (order : Fin n → TargetOrder)
    (file : Option (List Char)) (edgeMap : Fin n → EdgeMap) {trace : List (SaveEvent n)}
    {s : SaveState n} (hkill : ∀ p, .kill p ∉ trace)
    (hrun : saveRun order (.saving file edgeMap) trace = some s) :
    ChunksApart trace ∧
      ((∀ p, s.phase p = .finished) → ∃ p, lastLocker trace = some p ∧
        s.file = some (edgesText (order p) (edgeMap p))) := by
  have hstart : Tracked order file (.start file) (SaveState.saving file edgeMap) :=
    tracked_initial order (.saving file edgeMap) fun _ => Or.inr rfl
  refine ⟨chunksApart_of_run hstart hkill hrun, ?_⟩
  intro hfinished
  have ho := ordered_run trace hkill (ordered_saving order file edgeMap) hstart hrun
  have ht := tracked_run trace hstart hrun
  cases hlast : lastLocker trace with
  | none =>
      rcases ho.waiting hlast ⟨0, hn⟩ with hp | hp <;> rw [hfinished] at hp <;> cases hp
  | some p =>
      refine ⟨p, rfl, ?_⟩
      have hfile := ht.file
      rw [ho.saved p hlast (by rw [hfinished]; rfl)] at hfile
      simp only [Touch.file, List.take_length] at hfile
      rw [hfile, SaveState.document, ho.edgeMap]

/-- Two processes that want the lock at the same time. -/
def contendedTrace {n : Nat} (first second : Fin n) : List (SaveEvent n) :=
  [.openLock first, .openLock second, .lock second, .truncate second, .write second 20,
    .write second 35, .close second, .unlock second, .lock first, .destroy second,
    .truncate first, .write first 9, .write first 20, .close first, .unlock first,
    .destroy first]

/-- Two maps of different lengths. -/
def contendedEdges {n : Nat} (p : Fin n) : EdgeMap :=
  if p.val = 0 then EdgeMap.empty.insertEdge 0x1 0x2
  else (EdgeMap.empty.insertEdge 0x1 0x2).insertEdge 0x3 0x4

theorem writers_exclude_contended :
    ∃ s : SaveState 2,
      saveRun (fun _ => .ascending) (.saving none contendedEdges) (contendedTrace 0 1) = some s ∧
        ChunksApart (contendedTrace (0 : Fin 2) 1) ∧
        lastLocker (contendedTrace (0 : Fin 2) 1) = some 0 ∧
        s.file = some (edgesText .ascending (contendedEdges (0 : Fin 2))) ∧
        edgesText .ascending (contendedEdges (0 : Fin 2)) ≠ edgesText .ascending (contendedEdges (1 : Fin 2)) := by
  have hpermitted : (saveRun (fun _ => .ascending) (.saving none contendedEdges)
      (contendedTrace (0 : Fin 2) 1)).any (fun s => decide (∀ p, s.phase p = .finished)) = true := by
    decide
  obtain ⟨s, hrun, hdone⟩ := Option.any_eq_true _ _ |>.mp hpermitted
  have hkill : ∀ p, .kill p ∉ contendedTrace (0 : Fin 2) 1 := by decide
  obtain ⟨hapart, hlast⟩ := writers_exclude (by decide) (fun _ => .ascending) none contendedEdges
    hkill hrun
  obtain ⟨p, hp, hfile⟩ := hlast (of_decide_eq_true hdone)
  have hzero : lastLocker (contendedTrace (0 : Fin 2) 1) = some 0 := by decide
  rw [hzero] at hp
  obtain rfl := Option.some.inj hp
  exact ⟨s, hrun, hapart, hzero, hfile, by decide⟩

end Icflow.PinTool
