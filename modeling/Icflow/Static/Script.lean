import Icflow.Foundation.Lines
import Icflow.Static.Jobs

set_option autoImplicit false

/-!
# The main program of `buildall_timeout.sh`

`process_packages` reads the list, gathers batches of ten URLs and hands each to
`process_batch`, which clones the whole batch and then builds it.  `Step` is one step of
the script or of one of its jobs.  `batches` are the batches of a run, which depend on
the list and on the progress log it starts with.
-/

namespace Icflow.Static

open Icflow.Foundation Icflow.Collect

/-- The list file, as a shell in some locale reads it. -/
structure ListFile where
  text : List Char
  /-- the bytes are characters of the locale -/
  isText : List Char → Bool

/-- `[[ "$url" =~ ^#.*$ ]]`: the dots stand for characters of the locale. -/
def ListFile.isComment (list : ListFile) : Url → Bool
  | '#' :: rest => list.isText rest
  | _ => false

/-- What a run is given. -/
structure Run where
  list : ListFile
  /-- what `grep` answers at a line that it takes for an option -/
  grepFinds : Nat → Bool
  /-- what `date` prints while the files are set up -/
  now : Int

/-- `mapfile -t`: a line ends at a null byte. -/
def mapfile (text : List Char) : List Url :=
  let pieces := lines text
  (if pieces.getLast? = some [] then pieces.dropLast else pieces).map fun line =>
    line.takeWhile (· != '\x00')

/-- The number of URLs in a batch. -/
def batchSize : Nat := 10

/-- The line is a comment, empty or in the progress log. -/
def passesOver (run : Run) (progress : List Url) (totalCount : Nat) (url : Url) : Bool :=
  run.list.isComment url || url == [] ||
    if isOption url then run.grepFinds totalCount else progress.contains url

/-- How far a run has come. -/
inductive State where
  /-- the loop of `process_packages`, with the lines left and `batch_urls` -/
  | reading (totalCount : Nat) (urls batch : List Url) (store : Store)
  | cloning (totalCount : Nat) (urls batch : List Url) (pool : JobPool.State Store Url CloneJob)
  | building (totalCount : Nat) (urls : List Url) (pool : JobPool.State Store Url BuildJob)
  | finished (store : Store)

/-- The files of a state. -/
def State.store : State → Store
  | .reading _ _ _ store => store
  | .cloning _ _ _ pool => pool.store
  | .building _ _ pool => pool.store
  | .finished store => store

/-- The files are set up: the map is emptied, and what is missing is made. -/
def setUp (now : Int) (s : Store) : Store :=
  { s with
    elfMap := []
    counter := some (s.counter.getD 0)
    timestamp := some (s.timestamp.getD now) }

/-- Before the first line. -/
def State.initial (run : Run) (s : Store) : State :=
  .reading 0 (mapfile run.list.text) [] (setUp run.now s)

/-- One step of the script or of a job. -/
inductive Step (config : Config) (run : Run) : State → List Event → State → Prop where
  | passOver (totalCount : Nat) (url : Url) (urls batch : List Url) (s : Store)
      (h : passesOver run s.progress (totalCount + 1) url = true) :
      Step config run (.reading totalCount (url :: urls) batch s) []
        (.reading (totalCount + 1) urls batch s)
  | add (totalCount : Nat) (url : Url) (urls batch : List Url) (s : Store)
      (h : passesOver run s.progress (totalCount + 1) url = false)
      (hbatch : (batch ++ [url]).length < batchSize) :
      Step config run (.reading totalCount (url :: urls) batch s) []
        (.reading (totalCount + 1) urls (batch ++ [url]) s)
  | full (totalCount : Nat) (url : Url) (urls batch : List Url) (s : Store)
      (h : passesOver run s.progress (totalCount + 1) url = false)
      (hbatch : batchSize ≤ (batch ++ [url]).length) :
      Step config run (.reading totalCount (url :: urls) batch s) []
        (.cloning (totalCount + 1) urls (batch ++ [url]) (.start s (batch ++ [url])))
  | last (totalCount : Nat) (batch : List Url) (s : Store) (hbatch : batch ≠ []) :
      Step config run (.reading totalCount [] batch s) []
        (.cloning totalCount [] batch (.start s batch))
  | clone (totalCount : Nat) (urls batch : List Url) (events : List Event)
      (pool pool' : JobPool.State Store Url CloneJob)
      (h : JobPool.Step (clonePhase config) config.maxJobs pool events pool') :
      Step config run (.cloning totalCount urls batch pool) events
        (.cloning totalCount urls batch pool')
  | cloned (totalCount : Nat) (urls batch : List Url) (pool : JobPool.State Store Url CloneJob)
      (hdone : pool.Done) :
      Step config run (.cloning totalCount urls batch pool) []
        (.building totalCount urls (.start pool.store batch))
  | build (totalCount : Nat) (urls : List Url) (events : List Event)
      (pool pool' : JobPool.State Store Url BuildJob)
      (h : JobPool.Step (buildPhase config) config.maxJobs pool events pool') :
      Step config run (.building totalCount urls pool) events (.building totalCount urls pool')
  | built (totalCount : Nat) (urls : List Url) (pool : JobPool.State Store Url BuildJob)
      (hdone : pool.Done) :
      Step config run (.building totalCount urls pool) [] (.reading totalCount urls [] pool.store)
  | finish (totalCount : Nat) (s : Store) :
      Step config run (.reading totalCount [] [] s) [] (.finished s)

/-- A run from the files `s` gets to a state, and its events are these. -/
def Executes (config : Config) (run : Run) (s : Store) (events : List Event) (state : State) :
    Prop :=
  Trace (Step config run) (State.initial run s) events state

/-- The URLs that `clone_package` was called with. -/
def clonesStarted (events : List Event) : List Url :=
  events.filterMap fun event => match event with
    | .cloneStarted url => some url
    | _ => none

/-- The URLs whose directories `build_package` was called with. -/
def buildsStarted (events : List Event) : List Url :=
  events.filterMap fun event => match event with
    | .buildStarted url => some url
    | _ => none

@[simp] theorem clonesStarted_append (events more : List Event) :
    clonesStarted (events ++ more) = clonesStarted events ++ clonesStarted more :=
  List.filterMap_append

@[simp] theorem buildsStarted_append (events more : List Event) :
    buildsStarted (events ++ more) = buildsStarted events ++ buildsStarted more :=
  List.filterMap_append

section Batches

/-- The batches that are still to come when the lines `urls` are left. -/
def batchesFrom (run : Run) (progress : List Url) (totalCount : Nat) (batch : List Url) :
    List Url → List (List Url)
  | [] => if batch = [] then [] else [batch]
  | url :: urls =>
      if passesOver run progress (totalCount + 1) url then
        batchesFrom run progress (totalCount + 1) batch urls
      else if (batch ++ [url]).length < batchSize then
        batchesFrom run progress (totalCount + 1) (batch ++ [url]) urls
      else
        (batch ++ [url]) ::
          batchesFrom run (progress ++ (batch ++ [url]).flatMap echoed) (totalCount + 1) [] urls

/-- The batches of a run. -/
def batches (run : Run) (s : Store) : List (List Url) :=
  batchesFrom run s.progress 0 [] (mapfile run.list.text)

variable {run : Run} {progress progress' : List Url} {totalCount : Nat} {url : Url}
  {urls batch : List Url}

theorem passesOver_congr (h : ∀ url, url ∈ progress ↔ url ∈ progress') (totalCount : Nat)
    (url : Url) : passesOver run progress totalCount url = passesOver run progress' totalCount url := by
  unfold passesOver
  rw [List.contains_eq_mem, List.contains_eq_mem, decide_eq_decide.mpr (h url)]

/-- The batches depend on which URLs the log has, not on their order. -/
theorem batchesFrom_congr (h : ∀ url, url ∈ progress ↔ url ∈ progress') (totalCount : Nat)
    (batch urls : List Url) :
    batchesFrom run progress totalCount batch urls =
      batchesFrom run progress' totalCount batch urls := by
  induction urls generalizing progress progress' totalCount batch with
  | nil => rfl
  | cons url urls ih =>
      have happend : ∀ other, other ∈ progress ++ (batch ++ [url]).flatMap echoed ↔
          other ∈ progress' ++ (batch ++ [url]).flatMap echoed := fun other => by
        rw [List.mem_append, List.mem_append, h other]
      rw [batchesFrom, batchesFrom, passesOver_congr h, ih h, ih h, ih happend]

theorem batchesFrom_passOver (h : passesOver run progress (totalCount + 1) url = true) :
    batchesFrom run progress totalCount batch (url :: urls) =
      batchesFrom run progress (totalCount + 1) batch urls := by
  rw [batchesFrom, if_pos h]

theorem batchesFrom_add (h : passesOver run progress (totalCount + 1) url = false)
    (hbatch : (batch ++ [url]).length < batchSize) :
    batchesFrom run progress totalCount batch (url :: urls) =
      batchesFrom run progress (totalCount + 1) (batch ++ [url]) urls := by
  rw [batchesFrom, if_neg (Bool.eq_false_iff.mp h), if_pos hbatch]

theorem batchesFrom_full (h : passesOver run progress (totalCount + 1) url = false)
    (hbatch : batchSize ≤ (batch ++ [url]).length) :
    batchesFrom run progress totalCount batch (url :: urls) =
      (batch ++ [url]) ::
        batchesFrom run (progress ++ (batch ++ [url]).flatMap echoed) (totalCount + 1) [] urls := by
  rw [batchesFrom, if_neg (Bool.eq_false_iff.mp h), if_neg (Nat.not_lt.mpr hbatch)]

theorem batchesFrom_last (hbatch : batch ≠ []) :
    batchesFrom run progress totalCount batch [] = [batch] := by
  rw [batchesFrom, if_neg hbatch]

end Batches

section Sample

/-- A fresh `ARCH_PACKAGES_ROOT`. -/
def Store.empty : Store where
  progress := []
  directories := ∅
  counter := none
  timestamp := none
  buildLog := []
  elves := ∅
  elfMap := []

def sampleConfig : Config where
  machine := ⟨[[' ']], fun _ => []⟩
  maxJobs := 8
  cloneRateLimit := 10

def sampleUrl : Url := "https://h/p.git".toList

/-- The list has one URL. -/
def singleRun : Run where
  list := ⟨sampleUrl ++ ['\n'], fun _ => true⟩
  grepFinds := fun _ => false
  now := 0

end Sample

end Icflow.Static
