import Icflow.PinTool.ResultFile
import Mathlib.Logic.Function.Basic

set_option autoImplicit false

/-!
# `SaveEdgesAsJSON` in single system calls

Any number of processes run `Fini` on one path.  Each system call is a step, the
document goes out in chunks of any size at the stream's own offset, and a process may
be killed between any two steps, which gives its lock back.

`History` reads off a trace who created or truncated the file last, how much that
process has written since, and who completed the last save.  `tracked_run` says that
these determine the file.
-/

namespace Icflow.PinTool

open Icflow.Foundation.Json

/-- Where a process is in `Fini`. -/
inductive SavePhase where
  /-- before `LoadEdgesFromJSON` -/
  | loading
  /-- before the constructor of `FileLock` -/
  | loaded
  /-- the descriptor is open, before `flock` -/
  | opened
  /-- before the truncating open -/
  | locked
  /-- the stream is open and this much of the document is written -/
  | writing (count : Nat)
  /-- the stream is closed, before `unlock` -/
  | closed
  /-- before the destructor closes the descriptor -/
  | unlocked
  | finished
  /-- killed from outside -/
  | killed
  /-- ended by a fault of `LoadEdgesFromJSON` -/
  | aborted
  deriving DecidableEq, Repr

/-- The steps of a process. -/
inductive SaveEvent (n : Nat) where
  | load (p : Fin n)
  | openLock (p : Fin n)
  | lock (p : Fin n)
  | truncate (p : Fin n)
  /-- the next `length` bytes of the document -/
  | write (p : Fin n) (length : Nat)
  | close (p : Fin n)
  | unlock (p : Fin n)
  | destroy (p : Fin n)
  | kill (p : Fin n)
  deriving DecidableEq, Repr

/-- The file at the path, and the edge map and the phase of each process. -/
structure SaveState (n : Nat) where
  file : Option (List Char)
  edgeMap : Fin n → EdgeMap
  phase : Fin n → SavePhase

/-- Each process holds what it observed. -/
def SaveState.start {n : Nat} (file : Option (List Char)) (observed : Fin n → EdgeMap) :
    SaveState n where
  file := file
  edgeMap := observed
  phase := fun _ => .loading

/-- The process has the lock. -/
def SavePhase.holdsLock : SavePhase → Bool
  | .locked | .writing _ | .closed => true
  | .loading | .loaded | .opened | .unlocked | .finished | .killed | .aborted => false

/-- The process still runs. -/
def SavePhase.alive : SavePhase → Bool
  | .finished | .killed | .aborted => false
  | .loading | .loaded | .opened | .locked | .writing _ | .closed | .unlocked => true

/-- `pwrite`: the bytes at the offset are replaced, a gap before it reads as zeros. -/
def writeAt (text : List Char) (offset : Nat) (chunk : List Char) : List Char :=
  text.take offset ++ List.replicate (offset - text.length) '\x00' ++ chunk ++
    text.drop (offset + chunk.length)

section Protocol

variable {n : Nat} (order : Fin n → TargetOrder)

/-- What a process writes. -/
def SaveState.document (s : SaveState n) (p : Fin n) : List Char :=
  edgesText (order p) (s.edgeMap p)

/-- Move one process to another phase. -/
def SaveState.enter (s : SaveState n) (p : Fin n) (phase : SavePhase) : SaveState n :=
  { s with phase := Function.update s.phase p phase }

/-- One step; `none` when it is not due or the lock is taken. -/
def saveStep (s : SaveState n) : SaveEvent n → Option (SaveState n)
  | .load p =>
      if s.phase p = .loading then
        match loadEdgesFromJSON s.file (s.edgeMap p) with
        | .ok merged =>
            some ({ s with edgeMap := Function.update s.edgeMap p merged }.enter p .loaded)
        | .error _ => some (s.enter p .aborted)
      else none
  | .openLock p =>
      -- `O_WRONLY | O_CREAT`: an existing file keeps its content
      if s.phase p = .loaded then
        some ({ s with file := some (s.file.getD []) }.enter p .opened)
      else none
  | .lock p =>
      if s.phase p = .opened ∧ ∀ q, (s.phase q).holdsLock = false then some (s.enter p .locked)
      else none
  | .truncate p =>
      if s.phase p = .locked then some ({ s with file := some [] }.enter p (.writing 0))
      else none
  | .write p length =>
      match s.phase p with
      | .writing count =>
          let chunk := ((s.document order p).drop count).take length
          if 0 < length ∧ count + length ≤ (s.document order p).length then
            some ({ s with file := some (writeAt (s.file.getD []) count chunk) }.enter p
              (.writing (count + length)))
          else none
      | _ => none
  | .close p =>
      if s.phase p = .writing (s.document order p).length then some (s.enter p .closed)
      else none
  | .unlock p => if s.phase p = .closed then some (s.enter p .unlocked) else none
  | .destroy p => if s.phase p = .unlocked then some (s.enter p .finished) else none
  | .kill p => if (s.phase p).alive then some (s.enter p .killed) else none

/-- The steps of a trace; `none` when one of them is not permitted. -/
def saveRun : SaveState n → List (SaveEvent n) → Option (SaveState n)
  | s, [] => some s
  | s, event :: trace =>
      match saveStep order s event with
      | some s' => saveRun s' trace
      | none => none

end Protocol

/-! ## What a trace says about the file -/

/-- The last step that created or truncated the file, and how much was written since. -/
inductive Touch (n : Nat) where
  /-- there is no file -/
  | absent
  /-- the initial file is in place -/
  | untouched
  /-- opening the lock created an empty file -/
  | created
  | truncated (p : Fin n) (count : Nat)
  deriving DecidableEq, Repr

/-- The last touch, and the process that completed the last save. -/
structure History (n : Nat) where
  touch : Touch n
  saver : Option (Fin n)
  deriving DecidableEq, Repr

/-- Before the first step. -/
def History.start {n : Nat} (file : Option (List Char)) : History n where
  touch := if file.isNone then .absent else .untouched
  saver := none

/-- Follow one event. -/
def History.step {n : Nat} (h : History n) : SaveEvent n → History n
  | .openLock _ =>
      match h.touch with
      | .absent => { h with touch := .created }
      | .untouched | .created | .truncated .. => h
  | .truncate p => { h with touch := .truncated p 0 }
  | .write _ length =>
      match h.touch with
      | .truncated q count => { h with touch := .truncated q (count + length) }
      | .absent | .untouched | .created => h
  | .unlock p => { h with saver := some p }
  | .load _ | .lock _ | .close _ | .destroy _ | .kill _ => h

/-- The history of a trace. -/
def historyOf {n : Nat} (file : Option (List Char)) (trace : List (SaveEvent n)) : History n :=
  trace.foldl History.step (.start file)

/-- The file a history describes. -/
def Touch.file {n : Nat} (touch : Touch n) (order : Fin n → TargetOrder)
    (initial : Option (List Char)) (s : SaveState n) : Option (List Char) :=
  match touch with
  | .absent => none
  | .untouched => initial
  | .created => some []
  | .truncated p count => some ((s.document order p).take count)

/-- The history accounts for the file, the lock is exclusive, and the process inside
its stream is the one that truncated last. -/
structure Tracked {n : Nat} (order : Fin n → TargetOrder) (initial : Option (List Char))
    (h : History n) (s : SaveState n) : Prop where
  file : s.file = h.touch.file order initial s
  absent : h.touch = .absent → initial = none
  untouched : h.touch = .untouched → initial ≠ none
  exclusive : ∀ p q, (s.phase p).holdsLock = true → (s.phase q).holdsLock = true → p = q
  writing : ∀ p count, s.phase p = .writing count → h.touch = .truncated p count
  closed : ∀ p, s.phase p = .closed → h.touch = .truncated p (s.document order p).length
  count : ∀ p count, h.touch = .truncated p count →
    s.phase p ≠ .loading ∧ count ≤ (s.document order p).length
  saver : ∀ p, h.saver = some p → s.phase p ≠ .loading ∧ ∃ q count, h.touch = .truncated q count

/-- Before the first step of `SaveEdgesAsJSON` of any process. -/
theorem tracked_initial {n : Nat} (order : Fin n → TargetOrder) (s : SaveState n)
    (hphase : ∀ p, s.phase p = .loading ∨ s.phase p = .loaded) :
    Tracked order s.file (.start s.file) s where
  file := by
    unfold History.start
    cases hfile : s.file <;> rfl
  absent := by
    intro h
    cases hfile : s.file with
    | none => rfl
    | some text =>
        rw [hfile] at h
        cases h
  untouched := by
    intro h hfile
    rw [hfile] at h
    cases h
  exclusive := by
    intro p q hp
    rcases hphase p with h | h <;> rw [h] at hp <;> cases hp
  writing := by
    intro p count hp
    rcases hphase p with h | h <;> rw [h] at hp <;> cases hp
  closed := by
    intro p hp
    rcases hphase p with h | h <;> rw [h] at hp <;> cases hp
  count := by
    intro p count hp
    unfold History.start at hp
    cases hfile : s.file <;> rw [hfile] at hp <;> cases hp
  saver := by
    intro p hp
    cases hp

theorem tracked_start {n : Nat} (order : Fin n → TargetOrder) (file : Option (List Char))
    (observed : Fin n → EdgeMap) :
    Tracked order file (.start file) (.start file observed) :=
  tracked_initial order (.start file observed) fun _ => Or.inl rfl

/-! ## One step -/

section Step

variable {n : Nat} {order : Fin n → TargetOrder} {initial : Option (List Char)}
  {h : History n} {s : SaveState n}

/-- What a permitted step does, one case per system call. -/
inductive SaveMove (order : Fin n → TargetOrder) (s : SaveState n) :
    SaveEvent n → SaveState n → Prop where
  | load (p : Fin n) (merged : EdgeMap) (hphase : s.phase p = .loading)
      (hload : loadEdgesFromJSON s.file (s.edgeMap p) = .ok merged) :
      SaveMove order s (.load p)
        ({ s with edgeMap := Function.update s.edgeMap p merged }.enter p .loaded)
  | abort (p : Fin n) (hphase : s.phase p = .loading) :
      SaveMove order s (.load p) (s.enter p .aborted)
  | openLock (p : Fin n) (hphase : s.phase p = .loaded) :
      SaveMove order s (.openLock p) ({ s with file := some (s.file.getD []) }.enter p .opened)
  | lock (p : Fin n) (hphase : s.phase p = .opened)
      (hfree : ∀ q, (s.phase q).holdsLock = false) :
      SaveMove order s (.lock p) (s.enter p .locked)
  | truncate (p : Fin n) (hphase : s.phase p = .locked) :
      SaveMove order s (.truncate p) ({ s with file := some [] }.enter p (.writing 0))
  | write (p : Fin n) (count length : Nat) (hphase : s.phase p = .writing count)
      (hlength : 0 < length) (hfits : count + length ≤ (s.document order p).length) :
      SaveMove order s (.write p length)
        ({ s with
            file := some (writeAt (s.file.getD []) count
              (((s.document order p).drop count).take length)) }.enter p
          (.writing (count + length)))
  | close (p : Fin n) (hphase : s.phase p = .writing (s.document order p).length) :
      SaveMove order s (.close p) (s.enter p .closed)
  | unlock (p : Fin n) (hphase : s.phase p = .closed) :
      SaveMove order s (.unlock p) (s.enter p .unlocked)
  | destroy (p : Fin n) (hphase : s.phase p = .unlocked) :
      SaveMove order s (.destroy p) (s.enter p .finished)
  | kill (p : Fin n) (halive : (s.phase p).alive = true) :
      SaveMove order s (.kill p) (s.enter p .killed)

theorem saveStep_move {s' : SaveState n} {event : SaveEvent n}
    (hstep : saveStep order s event = some s') : SaveMove order s event s' := by
  cases event with
  | load p =>
      rw [saveStep] at hstep
      split at hstep
      · split at hstep
        · cases hstep
          exact .load p _ ‹_› ‹_›
        · cases hstep
          exact .abort p ‹_›
      · cases hstep
  | openLock p =>
      rw [saveStep] at hstep
      split at hstep
      · cases hstep
        exact .openLock p ‹_›
      · cases hstep
  | lock p =>
      rw [saveStep] at hstep
      split at hstep
      · rename_i hguard
        cases hstep
        exact .lock p hguard.1 hguard.2
      · cases hstep
  | truncate p =>
      rw [saveStep] at hstep
      split at hstep
      · cases hstep
        exact .truncate p ‹_›
      · cases hstep
  | write p length =>
      rw [saveStep] at hstep
      split at hstep
      · rename_i count hphase
        split at hstep
        · rename_i hguard
          cases hstep
          exact .write p count length hphase hguard.1 hguard.2
        · cases hstep
      · cases hstep
  | close p =>
      rw [saveStep] at hstep
      split at hstep
      · cases hstep
        exact .close p ‹_›
      · cases hstep
  | unlock p =>
      rw [saveStep] at hstep
      split at hstep
      · cases hstep
        exact .unlock p ‹_›
      · cases hstep
  | destroy p =>
      rw [saveStep] at hstep
      split at hstep
      · cases hstep
        exact .destroy p ‹_›
      · cases hstep
  | kill p =>
      rw [saveStep] at hstep
      split at hstep
      · cases hstep
        exact .kill p ‹_›
      · cases hstep

@[simp] theorem SaveState.enter_file (s : SaveState n) (p : Fin n) (phase : SavePhase) :
    (s.enter p phase).file = s.file := rfl

@[simp] theorem SaveState.enter_edgeMap (s : SaveState n) (p : Fin n) (phase : SavePhase) :
    (s.enter p phase).edgeMap = s.edgeMap := rfl

@[simp] theorem SaveState.enter_phase_self (s : SaveState n) (p : Fin n) (phase : SavePhase) :
    (s.enter p phase).phase p = phase := Function.update_self ..

theorem SaveState.enter_phase_of_ne (s : SaveState n) {p q : Fin n} (hqp : q ≠ p)
    (phase : SavePhase) : (s.enter p phase).phase q = s.phase q := Function.update_of_ne hqp ..

/-- Appending the next chunk of a document to what is written of it. -/
theorem writeAt_take (text : List Char) {count length : Nat} (hfits : count + length ≤ text.length) :
    writeAt (text.take count) count ((text.drop count).take length) =
      text.take (count + length) := by
  have hcount : (text.take count).length = count := by
    rw [List.length_take]
    omega
  have hgap : count - (text.take count).length = 0 := by omega
  have hrest : (text.take count).drop (count + ((text.drop count).take length).length) = [] := by
    apply List.drop_eq_nil_of_le
    omega
  rw [writeAt, hgap, hrest, List.take_of_length_le (by omega), List.take_add]
  simp

/-- Moving one process on, when the new phase claims nothing the history does not say. -/
theorem Tracked.enter (ht : Tracked order initial h s) {p : Fin n} {phase : SavePhase}
    (hloading : phase ≠ .loading)
    (hlock : phase.holdsLock = true → ∀ q, q ≠ p → (s.phase q).holdsLock = false)
    (hwriting : ∀ count, phase = .writing count → h.touch = .truncated p count)
    (hclosed : phase = .closed → h.touch = .truncated p (s.document order p).length) :
    Tracked order initial h (s.enter p phase) where
  file := ht.file
  absent := ht.absent
  untouched := ht.untouched
  exclusive := by
    intro q r hq hr
    by_cases hqp : q = p
    · by_cases hrp : r = p
      · rw [hqp, hrp]
      · rw [s.enter_phase_of_ne hrp] at hr
        rw [hqp, s.enter_phase_self] at hq
        rw [hlock hq r hrp] at hr
        cases hr
    · rw [s.enter_phase_of_ne hqp] at hq
      by_cases hrp : r = p
      · rw [hrp, s.enter_phase_self] at hr
        rw [hlock hr q hqp] at hq
        cases hq
      · rw [s.enter_phase_of_ne hrp] at hr
        exact ht.exclusive q r hq hr
  writing := by
    intro q count hq
    by_cases hqp : q = p
    · subst hqp
      rw [s.enter_phase_self] at hq
      exact hwriting count hq
    · rw [s.enter_phase_of_ne hqp] at hq
      exact ht.writing q count hq
  closed := by
    intro q hq
    by_cases hqp : q = p
    · subst hqp
      rw [s.enter_phase_self] at hq
      exact hclosed hq
    · rw [s.enter_phase_of_ne hqp] at hq
      exact ht.closed q hq
  count := by
    intro q count hq
    refine ⟨?_, (ht.count q count hq).2⟩
    by_cases hqp : q = p
    · subst hqp
      rw [s.enter_phase_self]
      exact hloading
    · rw [s.enter_phase_of_ne hqp]
      exact (ht.count q count hq).1
  saver := by
    intro q hq
    refine ⟨?_, (ht.saver q hq).2⟩
    by_cases hqp : q = p
    · subst hqp
      rw [s.enter_phase_self]
      exact hloading
    · rw [s.enter_phase_of_ne hqp]
      exact (ht.saver q hq).1

/-- Every process other than the holder of the lock is outside it. -/
theorem Tracked.others_free (ht : Tracked order initial h s) {p : Fin n}
    (hp : (s.phase p).holdsLock = true) : ∀ q, q ≠ p → (s.phase q).holdsLock = false := by
  intro q hqp
  by_contra hq
  exact hqp (ht.exclusive q p (by simpa using hq) hp)

/-- The holder of the lock, outside its stream, makes the file a part of its document. -/
theorem Tracked.rewrite (ht : Tracked order initial h s) {p : Fin n}
    (hp : s.phase p = .locked) {count : Nat} (hcount : count ≤ (s.document order p).length) :
    Tracked order initial { h with touch := .truncated p count }
      { s with file := some ((s.document order p).take count) } := by
  have hlock : (s.phase p).holdsLock = true := by
    rw [hp]
    rfl
  have hnone : ∀ q, s.phase q ≠ .locked → (s.phase q).holdsLock = false := by
    intro q hq
    exact ht.others_free hlock q fun heq => hq (heq ▸ hp)
  refine ⟨rfl, (by intro h; cases h), (by intro h; cases h), ht.exclusive, ?_, ?_, ?_, ?_⟩
  · intro q count' hq
    have hfree := hnone q (by simp only at hq; rw [hq]; simp)
    simp only at hq
    rw [hq] at hfree
    cases hfree
  · intro q hq
    have hfree := hnone q (by simp only at hq; rw [hq]; simp)
    simp only at hq
    rw [hq] at hfree
    cases hfree
  · intro q count' hq
    cases hq
    refine ⟨?_, hcount⟩
    simp only
    rw [hp]
    simp
  · intro q hq
    exact ⟨(ht.saver q hq).1, p, count, rfl⟩

/-- A load changes the map of a process that has not touched the file. -/
theorem Tracked.load (ht : Tracked order initial h s) {p : Fin n} (hp : s.phase p = .loading)
    (merged : EdgeMap) :
    Tracked order initial h { s with edgeMap := Function.update s.edgeMap p merged } := by
  have hdocument : ∀ q, s.phase q ≠ .loading →
      ({ s with edgeMap := Function.update s.edgeMap p merged } : SaveState n).document order q =
        s.document order q := by
    intro q hq
    have hqp : q ≠ p := fun heq => hq (heq ▸ hp)
    simp only [SaveState.document, Function.update_of_ne hqp]
  refine ⟨?_, ht.absent, ht.untouched, ht.exclusive, ht.writing, ?_, ?_, ht.saver⟩
  · have hfile := ht.file
    cases htouch : h.touch with
    | absent | untouched | created =>
        rw [htouch] at hfile
        exact hfile
    | truncated q count =>
        rw [htouch] at hfile
        simp only [Touch.file]
        rw [hdocument q (ht.count q count htouch).1]
        exact hfile
  · intro q hq
    have hloading : s.phase q ≠ .loading := by
      simp only at hq
      rw [hq]
      simp
    rw [hdocument q hloading]
    exact ht.closed q hq
  · intro q count hq
    obtain ⟨hloading, hcount⟩ := ht.count q count hq
    rw [hdocument q hloading]
    exact ⟨hloading, hcount⟩

/-- Opening the lock creates the file when there is none. -/
theorem Tracked.openLock (ht : Tracked order initial h s) (p : Fin n) :
    Tracked order initial (h.step (.openLock p)) { s with file := some (s.file.getD []) } := by
  have hfile := ht.file
  cases htouch : h.touch with
  | absent =>
      rw [htouch] at hfile
      have hstep : h.step (.openLock p) = { h with touch := .created } := by
        simp [History.step, htouch]
      rw [hstep]
      refine ⟨?_, (by intro h; cases h), (by intro h; cases h), ht.exclusive, ?_, ?_, ?_, ?_⟩
      · simp [hfile, Touch.file]
      · intro q count hq
        have hcount := ht.writing q count hq
        rw [htouch] at hcount
        cases hcount
      · intro q hq
        have hcount := ht.closed q hq
        rw [htouch] at hcount
        cases hcount
      · intro q count hq
        cases hq
      · intro q hq
        obtain ⟨_, r, count, hcount⟩ := ht.saver q hq
        rw [htouch] at hcount
        cases hcount
  | untouched | created | truncated q count =>
      have hstep : h.step (.openLock p) = h := by
        simp [History.step, htouch]
      have hsome : ∃ text, s.file = some text := by
        rw [hfile, htouch]
        first
        | exact ⟨_, rfl⟩
        | exact Option.ne_none_iff_exists'.mp (ht.untouched htouch)
      obtain ⟨text, htext⟩ := hsome
      have hsame : ({ s with file := some (s.file.getD []) } : SaveState n) = s := by
        rw [htext, Option.getD_some, ← htext]
      rw [hstep, hsame]
      exact ht

/-- Another chunk of the document is written to the file. -/
theorem Tracked.write (ht : Tracked order initial h s) {p : Fin n} {count length : Nat}
    (hphase : s.phase p = .writing count) (hfits : count + length ≤ (s.document order p).length) :
    Tracked order initial (h.step (.write p length))
      ({ s with
          file := some (writeAt (s.file.getD []) count
            (((s.document order p).drop count).take length)) }.enter p
        (.writing (count + length))) := by
  have hlock : (s.phase p).holdsLock = true := by
    rw [hphase]
    rfl
  have htouch := ht.writing p count hphase
  have hfile := ht.file
  rw [htouch] at hfile
  -- forget the stream, rewrite the file, and enter the stream again
  have hlocked : Tracked order initial h (s.enter p .locked) :=
    ht.enter (by simp) (fun _ => ht.others_free hlock) (by simp) (by simp)
  have hrewrite : Tracked order initial { h with touch := .truncated p (count + length) }
      { s.enter p .locked with
        file := some (((s.enter p .locked).document order p).take (count + length)) } :=
    hlocked.rewrite (s.enter_phase_self p .locked) hfits
  have hfree : ∀ q, q ≠ p → ((s.enter p .locked).phase q).holdsLock = false := by
    intro q hqp
    rw [s.enter_phase_of_ne hqp]
    exact ht.others_free hlock q hqp
  have hhistory : h.step (.write p length) =
      { h with touch := .truncated p (count + length) } := by
    simp [History.step, htouch]
  rw [hhistory]
  have hstate : ({ s with
        file := some (writeAt (s.file.getD []) count
          (((s.document order p).drop count).take length)) }.enter p
      (.writing (count + length)) : SaveState n) =
      ({ s.enter p .locked with
          file := some (((s.enter p .locked).document order p).take (count + length)) }.enter p
        (.writing (count + length))) := by
    rw [hfile]
    simp only [Touch.file, Option.getD_some, writeAt_take _ hfits]
    simp [SaveState.enter, SaveState.document]
  rw [hstate]
  refine hrewrite.enter (by simp) (fun _ => hfree) ?_ (by simp)
  intro count' hcount'
  cases hcount'
  rfl

/-- A permitted step keeps the history accurate. -/
theorem Tracked.step (ht : Tracked order initial h s) {s' : SaveState n} {event : SaveEvent n}
    (hstep : saveStep order s event = some s') : Tracked order initial (h.step event) s' := by
  cases saveStep_move hstep with
  | load p merged hphase _ =>
      exact (ht.load hphase merged).enter (by simp) (by simp [SavePhase.holdsLock]) (by simp)
        (by simp)
  | abort p _ => exact ht.enter (by simp) (by simp [SavePhase.holdsLock]) (by simp) (by simp)
  | openLock p _ =>
      exact (ht.openLock p).enter (by simp) (by simp [SavePhase.holdsLock]) (by simp) (by simp)
  | lock p _ hfree => exact ht.enter (by simp) (fun _ q _ => hfree q) (by simp) (by simp)
  | truncate p hphase =>
      have hlock : (s.phase p).holdsLock = true := by
        rw [hphase]
        rfl
      have hrewrite := ht.rewrite hphase (Nat.zero_le (s.document order p).length)
      refine hrewrite.enter (by simp) (fun _ => ht.others_free hlock) ?_ (by simp)
      intro count hcount
      cases hcount
      rfl
  | write p count length hphase _ hfits => exact ht.write hphase hfits
  | close p hphase =>
      have hlock : (s.phase p).holdsLock = true := by
        rw [hphase]
        rfl
      exact ht.enter (by simp) (fun _ => ht.others_free hlock) (by simp)
        (fun _ => ht.writing p _ hphase)
  | unlock p hphase =>
      have htouch := ht.closed p hphase
      have hsaved : Tracked order initial { h with saver := some p } s := by
        refine ⟨ht.file, ht.absent, ht.untouched, ht.exclusive, ht.writing, ht.closed,
          ht.count, ?_⟩
        intro q hq
        cases hq
        exact ⟨by rw [hphase]; simp, p, _, htouch⟩
      exact hsaved.enter (by simp) (by simp [SavePhase.holdsLock]) (by simp) (by simp)
  | destroy p _ => exact ht.enter (by simp) (by simp [SavePhase.holdsLock]) (by simp) (by simp)
  | kill p _ => exact ht.enter (by simp) (by simp [SavePhase.holdsLock]) (by simp) (by simp)

theorem saveRun_append (trace trace' : List (SaveEvent n)) :
    ∀ s : SaveState n, saveRun order s (trace ++ trace') =
      (saveRun order s trace).bind fun middle => saveRun order middle trace' := by
  induction trace with
  | nil => exact fun _ => rfl
  | cons event trace ih =>
      intro s
      rw [List.cons_append, saveRun, saveRun]
      split
      · exact ih _
      · rfl

/-- A permitted step at the head of a permitted trace. -/
theorem saveRun_cons {event : SaveEvent n} {trace : List (SaveEvent n)} {final : SaveState n}
    (hrun : saveRun order s (event :: trace) = some final) :
    ∃ s', saveStep order s event = some s' ∧ saveRun order s' trace = some final := by
  unfold saveRun at hrun
  split at hrun
  · exact ⟨_, ‹_›, hrun⟩
  · cases hrun

end Step

/-- The history of a run accounts for its last state. -/
theorem tracked_run {n : Nat} {order : Fin n → TargetOrder} {initial : Option (List Char)}
    (trace : List (SaveEvent n)) : ∀ {h : History n} {s final : SaveState n},
      Tracked order initial h s → saveRun order s trace = some final →
      Tracked order initial (trace.foldl History.step h) final := by
  induction trace with
  | nil =>
      intro h s final ht hrun
      cases hrun
      exact ht
  | cons event trace ih =>
      intro h s final ht hrun
      unfold saveRun at hrun
      split at hrun
      · rename_i s' hstep
        exact ih (ht.step hstep) hrun
      · cases hrun

end Icflow.PinTool
