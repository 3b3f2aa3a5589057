import Icflow.PinTool.LockProtocol

set_option autoImplicit false

/-!
# Whether the result file can be read

A file is cut off while it is being written, and it is the file itself that carries the
lock: opening the lock creates it empty, and the stream truncates it in place.
`readable_iff_settled` says in which reachable states a reader gets a complete document
with the edges of the last completed save.
-/

namespace Icflow.PinTool

open Icflow.Foundation
open Icflow.Foundation.Json

/-- The text is one complete JSON document. -/
def IsDocument (text : List Char) : Prop :=
  (parseStrict byteDialect (skipBom text)).isSome = true

/-- The path is absent, or holds one complete document from which `LoadEdgesFromJSON`
gets at least the saved edges. -/
def Readable (file : Option (List Char)) (saved : Finset (ADDRINT × ADDRINT)) : Prop :=
  file = none ∨ ∃ (text : List Char) (loaded : EdgeMap),
    file = some text ∧ IsDocument text ∧
      loadEdgesFromJSON (some text) .empty = .ok loaded ∧ saved ⊆ loaded.edges

/-- A file the runs may start from. -/
def ValidFile (file : Option (List Char)) (initial : EdgeMap) : Prop :=
  (file = none ∧ initial = .empty) ∨
    ∃ text, file = some text ∧ IsDocument text ∧
      loadEdgesFromJSON (some text) .empty = .ok initial

/-! ## Cut-off documents -/

theorem edgesText_nonempty (order : TargetOrder) {m : EdgeMap} (hm : m ≠ .empty) :
    ∃ tail, edgesText order m = '{' :: tail := by
  have hempty : ¬ m.toMap.isEmpty = true := fun h => hm (EdgeMap.toMap_isEmpty_iff.mp h)
  rw [edgesText, edgesJson, if_neg hempty, dump]
  split
  · exact ⟨_, rfl⟩
  · exact ⟨_, rfl⟩

theorem edgesText_empty (order : TargetOrder) :
    edgesText order .empty = ['n', 'u', 'l', 'l', '\n'] := rfl

/-- A document that lacks more than its final newline does not parse. -/
theorem parse_take_edgesText (order : TargetOrder) (m : EdgeMap) {count : Nat}
    (hcut : count + 1 < (edgesText order m).length) :
    parse byteDialect (skipBom ((edgesText order m).take count)) = none := by
  by_cases hm : m = .empty
  · subst hm
    rw [edgesText_empty] at hcut ⊢
    have hcount : count < 4 := by
      simp only [List.length_cons, List.length_nil] at hcut
      omega
    have hcuts : ∀ k < 4, (parse byteDialect
        (skipBom (['n', 'u', 'l', 'l', '\n'].take k))).isNone = true := by decide
    exact Option.isNone_iff_eq_none.mp (hcuts count hcount)
  · obtain ⟨tail, htail⟩ := edgesText_nonempty order hm
    cases count with
    | zero => rfl
    | succ count =>
        have hwhole := parse_edgesText byteDialect_asciiLawful order m
        have hlength : 1 < (tail.drop count).length := by
          rw [htail, List.length_cons] at hcut
          rw [List.length_drop]
          omega
        rw [htail] at hwhole ⊢
        have hsplit : '{' :: tail = '{' :: tail.take count ++ tail.drop count := by
          rw [List.cons_append, List.take_append_drop]
        rw [hsplit] at hwhole
        have hnone := parse_truncated hwhole hlength
        exact hnone

/-- A document that is complete but for its final newline is read like the whole. -/
theorem load_take_edgesText (order : TargetOrder) (m : EdgeMap) {count : Nat}
    (hwhole : (edgesText order m).length ≤ count + 1) :
    IsDocument ((edgesText order m).take count) ∧
      loadEdgesFromJSON (some ((edgesText order m).take count)) .empty = .ok m := by
  obtain ⟨rest, hrest, htake⟩ : ∃ rest, (rest = [] ∨ rest = ['\n']) ∧
      (edgesText order m).take count = dump 2 0 (edgesJson order m) ++ rest := by
    by_cases hall : (edgesText order m).length ≤ count
    · exact ⟨['\n'], Or.inr rfl, List.take_of_length_le hall⟩
    · have hcount : count = (dump 2 0 (edgesJson order m)).length := by
        simp only [edgesText, List.length_append, List.length_cons, List.length_nil] at hwhole hall
        omega
      refine ⟨[], Or.inl rfl, ?_⟩
      rw [hcount, edgesText, List.take_left, List.append_nil]
  have hbom : skipBom (dump 2 0 (edgesJson order m) ++ rest) =
      dump 2 0 (edgesJson order m) ++ rest := by
    unfold edgesJson
    split
    · rcases hrest with rfl | rfl <;> rfl
    · unfold dump
      split <;> rfl
  have hparse : parse byteDialect (dump 2 0 (edgesJson order m) ++ rest) =
      some ((edgesJson order m).map byteDialect.raw, rest) :=
    parse_dump byteDialect_asciiLawful 2 (plain_edgesJson order m) rest
  have hend : (scan byteDialect rest).1 = .endOfInput := by
    rcases hrest with rfl | rfl <;> rfl
  constructor
  · rw [IsDocument, htake, hbom, parseStrict, hparse]
    simp only [hend]
    rfl
  · -- the reader does not look behind the first value
    have hsame : loadEdgesFromJSON (some (dump 2 0 (edgesJson order m) ++ rest)) .empty =
        loadEdgesFromJSON (some (edgesText order m)) .empty := by
      simp only [loadEdgesFromJSON, hbom, hparse, skipBom_edgesText,
        parse_edgesText byteDialect_asciiLawful]
    rw [htake, hsame]
    exact loadEdges_edgesText_empty order m

theorem not_isDocument_of_parse {text : List Char} (h : parse byteDialect (skipBom text) = none) :
    ¬ IsDocument text := by
  rw [IsDocument, parseStrict, h]
  exact Bool.false_ne_true

theorem readable_some {text : List Char} {saved : Finset (ADDRINT × ADDRINT)} :
    Readable (some text) saved ↔ IsDocument text ∧
      ∃ loaded, loadEdgesFromJSON (some text) .empty = .ok loaded ∧ saved ⊆ loaded.edges := by
  simp [Readable]

theorem not_readable_of_parse {text : List Char} (h : parse byteDialect (skipBom text) = none)
    (saved : Finset (ADDRINT × ADDRINT)) : ¬ Readable (some text) saved :=
  fun hreadable => not_isDocument_of_parse h (readable_some.mp hreadable).1

/-- What has been written of a document is readable once only its final newline is missing. -/
theorem readable_take_edgesText_iff (order : TargetOrder) (m : EdgeMap) (count : Nat)
    (saved : Finset (ADDRINT × ADDRINT)) :
    Readable (some ((edgesText order m).take count)) saved ↔
      (edgesText order m).length ≤ count + 1 ∧ saved ⊆ m.edges := by
  by_cases hwhole : (edgesText order m).length ≤ count + 1
  · obtain ⟨hdocument, hload⟩ := load_take_edgesText order m hwhole
    rw [readable_some, and_iff_right hdocument, and_iff_right hwhole, hload]
    constructor
    · rintro ⟨loaded, hloaded, hsaved⟩
      obtain rfl := Except.ok.inj hloaded
      exact hsaved
    · exact fun hsaved => ⟨m, rfl, hsaved⟩
  · refine iff_of_false ?_ fun h => hwhole h.1
    exact not_readable_of_parse (parse_take_edgesText order m (Nat.lt_of_not_le hwhole)) saved

/-! ## Reachable states -/

/-- The edges of the last completed save; before one, those of the initial file. -/
def savedEdges {n : Nat} (initial : EdgeMap) (h : History n) (s : SaveState n) :
    Finset (ADDRINT × ADDRINT) :=
  match h.saver with
  | none => initial.edges
  | some p => (s.edgeMap p).edges

/-- The initial file is still in place, or the process that truncated it last has
written its document up to the final newline and holds every edge of the last completed
save. -/
def Settled {n : Nat} (order : Fin n → TargetOrder) (initial : EdgeMap) (h : History n)
    (s : SaveState n) : Prop :=
  match h.touch with
  | .absent | .untouched => True
  | .created => False
  | .truncated p count =>
      (s.document order p).length ≤ count + 1 ∧ savedEdges initial h s ⊆ (s.edgeMap p).edges

/-- In every reachable state the file is readable if and only if it is settled. -/
theorem readable_iff_settled {n : Nat} (order : Fin n → TargetOrder)
    {file : Option (List Char)} {initial : EdgeMap} (hvalid : ValidFile file initial)
    (observed : Fin n → EdgeMap) {trace : List (SaveEvent n)} {s : SaveState n}
    (hrun : saveRun order (.start file observed) trace = some s) :
    Readable s.file (savedEdges initial (historyOf file trace) s) ↔
      Settled order initial (historyOf file trace) s := by
  have ht : Tracked order file (historyOf file trace) s :=
    tracked_run trace (tracked_start order file observed) hrun
  have hfile := ht.file
  unfold Settled
  cases htouch : (historyOf file trace).touch with
  | absent =>
      rw [htouch] at hfile
      exact iff_of_true (Or.inl hfile) trivial
  | untouched =>
      rw [htouch] at hfile
      refine iff_of_true ?_ trivial
      have hsaver : (historyOf file trace).saver = none := by
        cases hsaver : (historyOf file trace).saver with
        | none => rfl
        | some p =>
            obtain ⟨_, q, count, hcount⟩ := ht.saver p hsaver
            rw [htouch] at hcount
            cases hcount
      rcases hvalid with ⟨hnone, _⟩ | ⟨text, htext, hdocument, hload⟩
      · exact absurd hnone (ht.untouched htouch)
      · refine Or.inr ⟨text, initial, hfile.trans htext, hdocument, hload, ?_⟩
        rw [savedEdges, hsaver]
  | created =>
      rw [htouch] at hfile
      rw [hfile]
      exact iff_of_false (not_readable_of_parse rfl _) id
  | truncated p count =>
      rw [htouch] at hfile
      rw [hfile]
      exact readable_take_edgesText_iff (order p) (s.edgeMap p) count _

/-! ## Runs -/

/-- In every state along the trace the file is readable. -/
def ReadableThroughout {n : Nat} (order : Fin n → TargetOrder) (initial : EdgeMap)
    (file : Option (List Char)) (observed : Fin n → EdgeMap) (trace : List (SaveEvent n)) : Prop :=
  ∀ (done rest : List (SaveEvent n)) (s : SaveState n), trace = done ++ rest →
    saveRun order (.start file observed) done = some s →
    Readable s.file (savedEdges initial (historyOf file done) s)

section Throughout

variable {n : Nat} {order : Fin n → TargetOrder} {file : Option (List Char)}

theorem historyOf_append (done : List (SaveEvent n)) (event : SaveEvent n) :
    historyOf file (done ++ [event]) = (historyOf file done).step event := by
  rw [historyOf, List.foldl_append]
  rfl

/-- Without a truncating open the initial file stays in place. -/
theorem touch_of_no_truncate {done : List (SaveEvent n)} (h : ∀ p, .truncate p ∉ done) :
    (historyOf file done).touch = .untouched ∧ file ≠ none ∨
      file = none ∧ ((historyOf file done).touch = .absent ∨
        (historyOf file done).touch = .created) := by
  induction done using List.reverseRecOn with
  | nil => cases file <;> simp [historyOf, History.start]
  | append_singleton done event ih =>
      have hdone := ih fun p hp => h p (List.mem_append_left [event] hp)
      rw [historyOf_append]
      cases event with
      | truncate p => exact absurd (List.mem_append_right done List.mem_cons_self) (h p)
      | openLock p | write p length =>
          rcases hdone with ⟨htouch, hfile⟩ | ⟨hfile, htouch | htouch⟩
          · exact Or.inl ⟨by simp [History.step, htouch], hfile⟩
          · exact Or.inr ⟨hfile, by simp [History.step, htouch]⟩
          · exact Or.inr ⟨hfile, by simp [History.step, htouch]⟩
      | load p | lock p | close p | unlock p | destroy p | kill p => exact hdone

/-- An absent path stays absent until the lock is opened. -/
theorem touch_of_no_openLock {done : List (SaveEvent n)} (hfile : file = none)
    (htruncate : ∀ p, .truncate p ∉ done) (h : ∀ p, .openLock p ∉ done) :
    (historyOf file done).touch = .absent := by
  induction done using List.reverseRecOn with
  | nil => simp [historyOf, History.start, hfile]
  | append_singleton done event ih =>
      have hdone := ih (fun p hp => htruncate p (List.mem_append_left [event] hp))
        fun p hp => h p (List.mem_append_left [event] hp)
      rw [historyOf_append]
      cases event with
      | truncate p => exact absurd (List.mem_append_right done List.mem_cons_self) (htruncate p)
      | openLock p => exact absurd (List.mem_append_right done List.mem_cons_self) (h p)
      | write p length => simp [History.step, hdone]
      | load p | lock p | close p | unlock p | destroy p | kill p => exact hdone

/-- A permitted trace can be stopped after any of its steps. -/
theorem saveRun_prefix {s final : SaveState n} {done rest : List (SaveEvent n)}
    {event : SaveEvent n} (hrun : saveRun order s (done ++ event :: rest) = some final) :
    ∃ s', saveRun order s (done ++ [event]) = some s' := by
  have hsplit : done ++ event :: rest = (done ++ [event]) ++ rest := by simp
  rw [hsplit, saveRun_append] at hrun
  obtain ⟨s', hs', _⟩ := Option.bind_eq_some_iff.mp hrun
  exact ⟨s', hs'⟩

/-- An empty file is not readable. -/
theorem Tracked.not_readable {h : History n} {s : SaveState n} (ht : Tracked order file h s)
    (htouch : h.touch = .created ∨ ∃ p, h.touch = .truncated p 0)
    (saved : Finset (ADDRINT × ADDRINT)) : ¬ Readable s.file saved := by
  have hempty : s.file = some [] := by
    rw [ht.file]
    rcases htouch with htouch | ⟨p, htouch⟩ <;> rw [htouch] <;> rfl
  rw [hempty]
  exact not_readable_of_parse rfl saved

end Throughout

/-- The file is readable all along a run if and only if no process gets to its truncating
open, and none opens its lock when there was no file at the start. -/
theorem readableThroughout_iff {n : Nat} (order : Fin n → TargetOrder)
    {file : Option (List Char)} {initial : EdgeMap} (hvalid : ValidFile file initial)
    (observed : Fin n → EdgeMap) {trace : List (SaveEvent n)} {final : SaveState n}
    (hrun : saveRun order (.start file observed) trace = some final) :
    ReadableThroughout order initial file observed trace ↔
      (∀ p, .truncate p ∉ trace) ∧ (file = none → ∀ p, .openLock p ∉ trace) := by
  have htracked : ∀ {done : List (SaveEvent n)} {s : SaveState n},
      saveRun order (.start file observed) done = some s →
        Tracked order file (historyOf file done) s :=
    fun hdone => tracked_run _ (tracked_start order file observed) hdone
  constructor
  · intro h
    have htruncate : ∀ p, .truncate p ∉ trace := by
      intro p hp
      obtain ⟨done, rest, rfl⟩ := List.append_of_mem hp
      obtain ⟨s', hs'⟩ := saveRun_prefix hrun
      have htouch : (historyOf file (done ++ [.truncate p])).touch = .truncated p 0 := by
        rw [historyOf_append]
        rfl
      exact (htracked hs').not_readable (Or.inr ⟨p, htouch⟩) _ (h _ rest s' (by simp) hs')
    refine ⟨htruncate, ?_⟩
    intro hfile p hp
    obtain ⟨done, rest, rfl⟩ := List.append_of_mem hp
    obtain ⟨s', hs'⟩ := saveRun_prefix hrun
    have htouch : (historyOf file (done ++ [.openLock p])).touch = .created := by
      rw [historyOf_append]
      have htouched : (historyOf file done).touch = .untouched ∧ file ≠ none ∨ _ :=
        touch_of_no_truncate fun q hq => htruncate q (List.mem_append_left _ hq)
      rcases htouched with ⟨_, hsome⟩ | ⟨_, hdone | hdone⟩
      · exact absurd hfile hsome
      · simp [History.step, hdone]
      · simp [History.step, hdone]
    exact (htracked hs').not_readable (Or.inl htouch) _ (h _ rest s' (by simp) hs')
  · rintro ⟨htruncate, hopen⟩ done rest s rfl hdone
    rw [readable_iff_settled order hvalid observed hdone]
    have hkept : ∀ p, .truncate p ∉ done := fun p hp => htruncate p (List.mem_append_left rest hp)
    unfold Settled
    rcases touch_of_no_truncate hkept with ⟨htouch, _⟩ | ⟨hfile, _⟩
    · rw [htouch]
      trivial
    · rw [touch_of_no_openLock hfile hkept fun p hp => hopen hfile p (List.mem_append_left rest hp)]
      trivial

/-- Two processes over a file from an earlier run: both are killed, the one before it has
the lock, the other with it. -/
def interruptedTrace {n : Nat} (first second : Fin n) : List (SaveEvent n) :=
  [.load first, .openLock first, .load second, .openLock second, .lock second, .kill first,
    .kill second]

/-- A call from the earlier run. -/
def earlierEdges : EdgeMap := EdgeMap.empty.insertEdge 0x1000 0x1800

theorem readableThroughout_iff_interrupted :
    ReadableThroughout (fun _ => .ascending) earlierEdges
      (some (edgesText .ascending earlierEdges)) (fun _ => .empty)
      (interruptedTrace (0 : Fin 2) 1) := by
  have hpermitted : (saveRun (fun _ => .ascending)
      (.start (some (edgesText .ascending earlierEdges)) fun _ => .empty)
      (interruptedTrace (0 : Fin 2) 1)).isSome = true := by decide
  obtain ⟨final, hrun⟩ := Option.isSome_iff_exists.mp hpermitted
  have hvalid : ValidFile (some (edgesText .ascending earlierEdges)) earlierEdges := by
    have hwhole := load_take_edgesText .ascending earlierEdges
      (Nat.le_succ (edgesText .ascending earlierEdges).length)
    rw [List.take_length] at hwhole
    exact Or.inr ⟨_, rfl, hwhole⟩
  refine (readableThroughout_iff _ hvalid _ hrun).mpr ⟨?_, ?_⟩
  · decide
  · intro hnone
    cases hnone

/-- A process that is killed after its truncating open leaves an empty file. -/
theorem not_readable_killed :
    ¬ ∀ (n : Nat) (order : Fin n → TargetOrder) (file : Option (List Char)) (initial : EdgeMap),
        ValidFile file initial →
        ∀ (observed : Fin n → EdgeMap) (trace : List (SaveEvent n)) (s : SaveState n),
          saveRun order (.start file observed) trace = some s →
          Readable s.file (savedEdges initial (historyOf file trace) s) := by
  intro h
  have hpermitted : (saveRun (fun _ => .ascending) (.start none fun _ => .empty)
      ([.load 0, .openLock 0, .lock 0, .truncate 0, .kill 0] : List (SaveEvent 1))).any
      (fun s => decide (s.file = some [])) = true := by decide
  obtain ⟨s, hrun, hfile⟩ := Option.any_eq_true _ _ |>.mp hpermitted
  have hempty := of_decide_eq_true hfile
  have hreadable := h 1 _ none .empty (Or.inl ⟨rfl, rfl⟩) (fun _ => .empty) _ s hrun
  rw [hempty] at hreadable
  exact not_readable_of_parse rfl _ hreadable

end Icflow.PinTool
