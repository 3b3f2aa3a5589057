import Icflow.Collect.Separation
import Icflow.Static.Sequential

set_option autoImplicit false

/-!
# The package list as the two pipelines read it

`process_packages` reads the list with `mapfile` and the main loop of `collect_dynamic.sh`
with `read`.  Which URLs each of them hands on is stated without its loop, by the lines of
the file alone, and the two sets are compared.
-/

namespace Icflow.Static

open Icflow.Foundation Icflow.Collect

/-- What `process_packages` takes a line of the list for. -/
def staticUrl (list : ListFile) (line : List Char) : Option Url :=
  let url := line.takeWhile (· != '\x00')
  if list.isComment url ∨ url = [] then none else some url

/-- What the main loop of `collect_dynamic.sh` takes a line of the list for. -/
def dynamicUrl (machine : Machine) (line : List Char) : Option Url :=
  urlOf machine (ReadLoop.dropNulls line)

/-- The URL that one iteration of the main loop hands to `process_package`. -/
def handedAt (machine : Machine) (oracle : Nat → Commands) (visit : LoopState × List Char) :
    Option Url :=
  match urlOf machine visit.2 with
  | none => none
  | some url =>
      if (grepProcessed (oracle visit.1.iterations) url visit.1.collection).1 then none
      else some url

/-- The URLs that the main loop hands to `process_package`. -/
def handed (machine : Machine) (oracle : Nat → Commands) (s : Collection) (text : List Char) :
    List Url :=
  (delivered machine oracle s text).filterMap (handedAt machine oracle)

/-- No command that the loop runs reads from its input. -/
def Quiet (machine : Machine) (oracle : Nat → Commands) (s : Collection) (text : List Char) :
    Prop :=
  ∀ visit ∈ delivered machine oracle s text, (loopBody machine oracle visit.1 visit.2).2 = 0

theorem exists_getElem?_cons {α : Type} {first : α} {rest : List α} {value : α} {P : Nat → Prop} :
    (∃ k, (first :: rest)[k]? = some value ∧ P k) ↔
      first = value ∧ P 0 ∨ ∃ k, rest[k]? = some value ∧ P (k + 1) := by
  constructor
  · rintro ⟨k, hk, hP⟩
    cases k with
    | zero =>
        rw [List.getElem?_cons_zero, Option.some.injEq] at hk
        exact Or.inl ⟨hk, hP⟩
    | succ k =>
        rw [List.getElem?_cons_succ] at hk
        exact Or.inr ⟨k, hk, hP⟩
  · rintro (⟨heq, hP⟩ | ⟨k, hk, hP⟩)
    · exact ⟨0, congrArg some heq, hP⟩
    · exact ⟨k + 1, hk, hP⟩

/-! ## `process_packages` -/

section Static

variable {run : Run} {progress : List Url} {url : Url}

theorem passesOver_eq_false_iff {totalCount : Nat} :
    passesOver run progress totalCount url = false ↔
      run.list.isComment url = false ∧ url ≠ [] ∧
        (isOption url = true → run.grepFinds totalCount = false) ∧
          (isOption url = false → url ∉ progress) := by
  unfold passesOver
  cases isOption url with
  | true => simp [and_assoc]
  | false => simp [and_assoc]

/-- The URLs of a batch that is recorded are passed over; others are not affected. -/
theorem passesOver_append {batch : List Url} (h : url ∉ batch) (totalCount : Nat) :
    passesOver run (progress ++ batch.flatMap echoed) totalCount url =
      passesOver run progress totalCount url := by
  rw [Bool.eq_iff_iff, ← not_iff_not, Bool.not_eq_true, Bool.not_eq_true,
    passesOver_eq_false_iff, passesOver_eq_false_iff]
  apply and_congr_right
  intro _
  apply and_congr_right
  intro hurl
  apply and_congr_right
  intro _
  apply imp_congr_right
  intro _
  rw [List.mem_append, not_or, and_iff_left]
  rw [List.mem_flatMap]
  rintro ⟨other, hother, hmem⟩
  exact h (((Collect.mem_echoed hurl).mp hmem).1 ▸ hother)

/-- The URLs of the batches are those of the lines that are not passed over at the start. -/
theorem mem_batchesFrom (totalCount : Nat) (batch urls : List Url) :
    url ∈ (batchesFrom run progress totalCount batch urls).flatten ↔
      url ∈ batch ∨ ∃ k, urls[k]? = some url ∧
        passesOver run progress (totalCount + k + 1) url = false := by
  induction urls generalizing progress totalCount batch with
  | nil =>
      unfold batchesFrom
      by_cases hbatch : batch = []
      · simp [hbatch]
      · simp [hbatch]
  | cons first urls ih =>
      rw [exists_getElem?_cons, Nat.add_zero]
      have hshift : ∀ k, totalCount + 1 + k + 1 = totalCount + (k + 1) + 1 := fun k => by omega
      cases hpass : passesOver run progress (totalCount + 1) first with
      | true =>
          have hfirst : ¬ (first = url ∧ passesOver run progress (totalCount + 1) url = false) := by
            rintro ⟨rfl, hmissed⟩
            rw [hpass] at hmissed
            cases hmissed
          rw [batchesFrom_passOver hpass, ih, or_iff_right hfirst]
          simp only [hshift]
      | false =>
          have hfirst : first = url ∧ passesOver run progress (totalCount + 1) url = false ↔
              url ∈ [first] := by
            rw [List.mem_singleton, eq_comm, and_iff_left_iff_imp]
            rintro rfl
            exact hpass
          rw [hfirst, ← or_assoc, ← List.mem_append]
          rcases Nat.lt_or_ge (batch ++ [first]).length batchSize with hlt | hge
          · rw [batchesFrom_add hpass hlt, ih]
            simp only [hshift]
          · rw [batchesFrom_full hpass hge, List.flatten_cons, List.mem_append, ih]
            by_cases hmem : url ∈ batch ++ [first]
            · simp only [hmem, true_or]
            · simp only [hmem, List.not_mem_nil, false_or, hshift, passesOver_append hmem]

/-- A finished run has called `clone_package` with the URLs of the lines that the progress
log of its start does not keep it from. -/
theorem Executes.mem_clonesStarted {config : Config} {initial s : Store} {events : List Event}
    (h : Executes config run initial events (.finished s)) :
    url ∈ clonesStarted events ↔ ∃ k, (mapfile run.list.text)[k]? = some url ∧
      passesOver run initial.progress (k + 1) url = false := by
  have hplanned := h.planned
  have hnone : State.planned run (.finished s) = [] := rfl
  rw [hnone, List.append_nil] at hplanned
  rw [hplanned, batches, mem_batchesFrom, or_iff_right (List.not_mem_nil)]
  simp only [Nat.zero_add]

theorem staticUrl_eq_some_iff {list : ListFile} {line : List Char} :
    staticUrl list line = some url ↔
      line.takeWhile (· != '\x00') = url ∧ list.isComment url = false ∧ url ≠ [] := by
  unfold staticUrl
  dsimp only
  constructor
  · intro h
    split at h
    · cases h
    · rename_i hkept
      obtain ⟨hcomment, hempty⟩ := not_or.mp hkept
      cases h
      exact ⟨rfl, Bool.not_eq_true _ ▸ hcomment, hempty⟩
  · rintro ⟨rfl, hcomment, hempty⟩
    rw [hcomment, if_neg (not_or_intro Bool.false_ne_true hempty)]

end Static

/-! ## The main loop -/

section Dynamic

variable {machine : Machine} {oracle : Nat → Commands} {url : Url}

/-- What `grep` says of a URL changes in an iteration only if it is the one handed on. -/
theorem grepProcessed_iterate (hurl : url ≠ []) {other : Url} {s : Collection} {first : Commands}
    (hended : s.processed.rest = [])
    (h : ¬ (other = url ∧ (grepProcessed first url s).1 = false)) (commands : Commands) :
    (grepProcessed commands url (iterate machine first other s).1).1 =
      (grepProcessed commands url s).1 := by
  cases hoption : isOption url with
  | true => rw [grepProcessed_of_option hoption, grepProcessed_of_option hoption]
  | false =>
      rw [Bool.eq_iff_iff, grepProcessed_of_not_option hoption,
        grepProcessed_of_not_option hoption]
      have hmove := iteration_iterate machine first other s
      generalize (iterate machine first other s).1 = after at hmove
      cases hmove with
      | found _ => rfl
      | done after hgrep _ hprocessed _ _ =>
          rw [hprocessed, LineFile.lines_appendAll hended, List.mem_append, or_iff_left]
          intro hmem
          have heq := ((Collect.mem_echoed hurl).mp hmem).1
          exact h ⟨heq.symm, heq ▸ hgrep⟩
      | failed after _ _ hprocessed _ _ => rw [hprocessed]

theorem mem_filterMap_handedAt (hurl : url ≠ []) {s : LoopState}
    (hended : s.collection.processed.rest = []) (text : List Char) :
    url ∈ (ReadLoop.visits (loopBody machine oracle) s text).filterMap (handedAt machine oracle) ↔
      ∃ k, (((ReadLoop.visits (loopBody machine oracle) s text).map Prod.snd).filterMap
          (urlOf machine))[k]? = some url ∧
        (grepProcessed (oracle (s.iterations + k)) url s.collection).1 = false := by
  have hrun := ReadLoop.run_induction (loopBody machine oracle) fun s visits _ =>
    s.collection.processed.rest = [] → (url ∈ visits.filterMap (handedAt machine oracle) ↔
      ∃ k, ((visits.map Prod.snd).filterMap (urlOf machine))[k]? = some url ∧
        (grepProcessed (oracle (s.iterations + k)) url s.collection).1 = false)
  refine hrun ?_ ?_ s text hended
  · intro s _
    simp
  · intro s line rest _ ih hended
    replace ih := ih (rest_loopBody_of_ended hended line)
    rw [List.filterMap_cons, List.map_cons, List.filterMap_cons, handedAt]
    cases hline : urlOf machine line with
    | none =>
        have hbody : (loopBody machine oracle s line).1 = s := by rw [loopBody, hline]
        rw [hbody] at ih
        exact ih
    | some other =>
        have hbody : (loopBody machine oracle s line).1 =
            { collection := (iterate machine (oracle s.iterations) other s.collection).1
              iterations := s.iterations + 1 } := by
          rw [loopBody, hline]
        rw [hbody] at ih
        have hshift : ∀ k, s.iterations + 1 + k = s.iterations + (k + 1) := fun k => by omega
        simp only [hshift] at ih
        dsimp only
        rw [exists_getElem?_cons, Nat.add_zero]
        by_cases hfirst : other = url ∧
            (grepProcessed (oracle s.iterations) url s.collection).1 = false
        · rw [hfirst.1, hfirst.2]
          refine iff_of_true ?_ (Or.inl ⟨rfl, rfl⟩)
          exact List.mem_cons_self
        · rw [or_iff_right hfirst]
          simp only [grepProcessed_iterate hurl hended hfirst] at ih
          rw [← ih]
          cases hgrep : (grepProcessed (oracle s.iterations) other s.collection).1 with
          | true => rfl
          | false =>
              have hne : url ≠ other := by
                rintro rfl
                exact hfirst ⟨rfl, hgrep⟩
              exact List.mem_cons.trans (or_iff_right hne)

theorem ne_nil_of_mem_handed {s : Collection} {text : List Char}
    (h : url ∈ handed machine oracle s text) : url ≠ [] := by
  obtain ⟨visit, _, hvisit⟩ := List.mem_filterMap.mp h
  unfold handedAt at hvisit
  split at hvisit
  · cases hvisit
  · rename_i other hline
    split at hvisit
    · cases hvisit
    · cases hvisit
      exact urlOf_ne_nil hline

/-- A loop whose commands leave its input alone hands on the listed URLs that `grep` does
not find among those recorded at the start. -/
theorem mem_handed {s : Collection} {text : List Char} (hended : s.processed.rest = [])
    (hquiet : Quiet machine oracle s text) :
    url ∈ handed machine oracle s text ↔ ∃ k, (listed machine text)[k]? = some url ∧
      (grepProcessed (oracle k) url s).1 = false := by
  have hlines : (delivered machine oracle s text).map Prod.snd = ReadLoop.readLines text :=
    ReadLoop.visits_lines _ text hquiet
  have hvisits : url ≠ [] → (url ∈ handed machine oracle s text ↔
      ∃ k, (((delivered machine oracle s text).map Prod.snd).filterMap (urlOf machine))[k]? =
          some url ∧ (grepProcessed (oracle (0 + k)) url s.resume).1 = false) :=
    fun hurl => mem_filterMap_handedAt hurl hended text
  rw [hlines] at hvisits
  simp only [Nat.zero_add] at hvisits
  constructor
  · intro h
    exact (hvisits (ne_nil_of_mem_handed h)).mp h
  · intro h
    obtain ⟨k, hk, _⟩ := id h
    obtain ⟨line, _, hline⟩ := List.mem_filterMap.mp (List.mem_of_getElem? hk)
    exact (hvisits (urlOf_ne_nil hline)).mpr h

end Dynamic

/-! ## The two readers side by side -/

/-- A line that the readers may take differently: it has a null byte or a carriage return at
its end, or it is a comment to one of them only. -/
def Deviant (machine : Machine) (list : ListFile) (line : List Char) : Prop :=
  '\x00' ∈ line ∨ line.getLast? = some '\r' ∨ isComment machine line ≠ list.isComment line

theorem staticUrl_eq_dynamicUrl {machine : Machine} {list : ListFile} {line : List Char}
    (h : ¬ Deviant machine list line) : staticUrl list line = dynamicUrl machine line := by
  unfold Deviant at h
  rw [not_or, not_or, ne_eq, not_not] at h
  obtain ⟨hnull, hreturn, hcomment⟩ := h
  have hkept := bne_of_notMem hnull
  have hstatic : line.takeWhile (· != '\x00') = line := List.takeWhile_eq_self_iff.mpr hkept
  have hdynamic : ReadLoop.dropNulls line = line := List.filter_eq_self.mpr hkept
  have hstrip : stripReturn line = line := if_neg hreturn
  unfold staticUrl dynamicUrl urlOf
  rw [hstatic, hdynamic, hstrip]
  dsimp only
  apply if_congr _ rfl rfl
  rw [hcomment, or_comm]

/-- Where the readers take a line differently, the other one reads the URL off another line
or the URL is recorded already; and `grep` answers the two alike at an option. -/
structure ReadsAlike (machine : Machine) (oracle : Nat → Commands) (processed : List Url)
    (run : Run) : Prop where
  static : ∀ line ∈ pieces run.list.text, Deviant machine run.list line →
    ∀ url, staticUrl run.list line = some url → isOption url = false → url ∈ processed ∨
      ∃ other ∈ pieces run.list.text, dynamicUrl machine other = some url
  dynamic : ∀ line ∈ pieces run.list.text, Deviant machine run.list line →
    ∀ url, dynamicUrl machine line = some url → isOption url = false → url ∈ processed ∨
      ∃ other ∈ pieces run.list.text, staticUrl run.list other = some url
  options : ∀ url, isOption url = true →
    ((∃ k, (mapfile run.list.text)[k]? = some url ∧ run.grepFinds (k + 1) = false) ↔
      ∃ k, (listed machine run.list.text)[k]? = some url ∧ (oracle k).grepFinds = false)

section Alike

variable {config : Config} {run : Run} {initial s : Store} {events : List Event}
  {oracle : Nat → Commands} {c : Collection} {url : Url}

/-- An option is no comment. -/
theorem isComment_of_isOption {list : ListFile} (h : isOption url = true) :
    list.isComment url = false := by
  unfold ListFile.isComment
  split
  · cases h
  · rfl

theorem ne_nil_of_isOption (h : isOption url = true) : url ≠ [] := by
  rintro rfl
  cases h

/-- A URL that is no option is cloned when it stands on a line and is not recorded. -/
theorem Executes.mem_clonesStarted_of_not_option
    (h : Executes config run initial events (.finished s)) (hoption : isOption url = false) :
    url ∈ clonesStarted events ↔
      (∃ line ∈ pieces run.list.text, staticUrl run.list line = some url) ∧
        url ∉ initial.progress := by
  rw [h.mem_clonesStarted]
  constructor
  · rintro ⟨k, hk, hpass⟩
    obtain ⟨hhash, hne, _, hnew⟩ := passesOver_eq_false_iff.mp hpass
    obtain ⟨line, hline, htaken⟩ := List.mem_map.mp (List.mem_of_getElem? hk)
    exact ⟨⟨line, hline, staticUrl_eq_some_iff.mpr ⟨htaken, hhash, hne⟩⟩, hnew hoption⟩
  · rintro ⟨⟨line, hline, htaken⟩, hnew⟩
    obtain ⟨heq, hhash, hne⟩ := staticUrl_eq_some_iff.mp htaken
    obtain ⟨k, hk⟩ := List.mem_iff_getElem?.mp (List.mem_map.mpr ⟨line, hline, heq⟩)
    refine ⟨k, hk, passesOver_eq_false_iff.mpr ⟨hhash, hne, ?_, fun _ => hnew⟩⟩
    intro hmissed
    rw [hoption] at hmissed
    cases hmissed

theorem Executes.mem_clonesStarted_of_option
    (h : Executes config run initial events (.finished s)) (hoption : isOption url = true) :
    url ∈ clonesStarted events ↔
      ∃ k, (mapfile run.list.text)[k]? = some url ∧ run.grepFinds (k + 1) = false := by
  rw [h.mem_clonesStarted]
  apply exists_congr
  intro k
  apply and_congr_right
  intro _
  rw [passesOver_eq_false_iff]
  constructor
  · rintro ⟨_, _, hgrep, _⟩
    exact hgrep hoption
  · intro hgrep
    refine ⟨isComment_of_isOption hoption, ne_nil_of_isOption hoption, fun _ => hgrep, ?_⟩
    intro hmissed
    rw [hoption] at hmissed
    cases hmissed

theorem mem_handed_of_not_option {machine : Machine} {text : List Char}
    (hended : c.processed.rest = [])
    (hquiet : Quiet machine oracle c text) (hoption : isOption url = false) :
    url ∈ handed machine oracle c text ↔
      (∃ line ∈ pieces text, dynamicUrl machine line = some url) ∧
        url ∉ c.processed.ended := by
  have hnil : urlOf machine [] = none := rfl
  have hlisted : url ∈ listed machine text ↔
      ∃ line ∈ pieces text, dynamicUrl machine line = some url := by
    rw [listed, ReadLoop.filterMap_readLines hnil, List.mem_filterMap]
    rfl
  have hgrep : ∀ k, (grepProcessed (oracle k) url c).1 = false ↔ url ∉ c.processed.ended := by
    intro k
    rw [← Bool.not_eq_true, grepProcessed_of_not_option hoption, LineFile.lines_of_ended hended]
  rw [mem_handed hended hquiet, ← hlisted, List.mem_iff_getElem?]
  simp only [hgrep]
  rw [exists_and_right]

theorem mem_handed_of_option {machine : Machine} {text : List Char}
    (hended : c.processed.rest = [])
    (hquiet : Quiet machine oracle c text) (hoption : isOption url = true) :
    url ∈ handed machine oracle c text ↔
      ∃ k, (listed machine text)[k]? = some url ∧ (oracle k).grepFinds = false := by
  rw [mem_handed hended hquiet]
  simp only [grepProcessed_of_option hoption]

end Alike

section Sample

/-- Commands that read nothing leave the input alone. -/
theorem quiet_steadyCommands (machine : Machine) (c : Collection) (text : List Char) :
    Quiet machine (fun _ => steadyCommands) c text := by
  intro visit _
  have hgrep : ∀ url, (grepProcessed steadyCommands url visit.1.collection).2 = 0 := by
    intro url
    unfold grepProcessed
    split
    · rfl
    · rfl
  have hpackage : ∀ url, (processPackage machine steadyCommands url visit.1.collection).reads = 0 := by
    intro url
    simp [processPackage, steadyCommands, greedyCommands]
  unfold loopBody
  split
  · rfl
  · unfold iterate
    dsimp only
    split
    · exact hgrep _
    · split
      · rw [hgrep, hpackage]
      · rw [hgrep, hpackage]

/-- A list of one URL whose line ends with a carriage return. -/
def returnRun : Run :=
  { singleRun with list := { singleRun.list with text := sampleUrl ++ ['\r', '\n'] } }

end Sample

end Icflow.Static
