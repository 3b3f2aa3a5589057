import Icflow.Generate.Confidential
import Icflow.Generate.Received
import Icflow.Generate.Reports

set_option autoImplicit false

/-!
# What is sent, and what is not

Only a run that asks for it sends anything, with a key of its own, after everything that
is read locally has been read, and then the same request each time.  A dry run shows what
the request is made of, and the key is in one header of it and nowhere else.
-/

namespace Icflow.Generate

open Icflow.Foundation

/-! ## The requests of a run -/

/-- A call sends the request up to the first outcome that is not transient, or until no
retry is left. -/
theorem requests_callResponsesApi (decode : Name → Option (Json Nat)) (outcomes : Nat → Outcome)
    (retries : Nat) (urlparse : Name → Option (Name × Name)) (arguments : Arguments) :
    (callResponsesApi decode outcomes retries urlparse arguments).requests = [] ∨
      ∃ n ≤ retries, (∀ m < n, Transient (outcomes m)) ∧ (Transient (outcomes n) → n = retries) ∧
        (callResponsesApi decode outcomes retries urlparse arguments).requests =
          List.replicate (n + 1) (buildRequest arguments) := by
  by_cases hbase : ∃ netloc, urlparse arguments.apiBase = some (text "https", netloc) ∧ netloc ≠ []
  · obtain ⟨netloc, hparsed, hnetloc⟩ := hbase
    obtain ⟨n, hn, result, hbefore, hlast, _, hloop⟩ :=
      exists_requestLoop decode (buildRequest arguments) outcomes retries
    refine Or.inr ⟨n, hn, hbefore, hlast, ?_⟩
    have hcount : ((retries : Int) + 1).toNat = retries + 1 := rfl
    rw [callResponsesApi_of_https hparsed hnetloc, hcount, hloop]
  · have hnone : ∀ netloc, urlparse arguments.apiBase = some (text "https", netloc) → netloc = [] := by
      intro netloc hparsed
      by_contra hnetloc
      exact hbase ⟨netloc, hparsed, hnetloc⟩
    rw [callResponsesApi_of_not_https hnone]
    exact Or.inl rfl

section Runs

variable (python : Python) (machine : Machine) (options : Options)

theorem requests_finish (outputDir : Path) (response : Response) (requests : List Request)
    (sleeps : List Nat) :
    (finish python machine options outputDir response requests sleeps).requests = requests := by
  unfold finish
  split
  · rfl
  · split
    · rfl
    · split <;> rfl

theorem requests_dryRun (draft : Draft) (promptOutput : Option Path) :
    (dryRun python machine draft promptOutput).requests = [] := by
  unfold dryRun
  cases promptOutput with
  | none => rfl
  | some path =>
      dsimp only
      split <;> rfl

/-- The requests of a run that takes its suite from the API. -/
theorem requests_generate {draft : Draft} {outputDir : Path} (hmode : options.mode = .api)
    (hkey : environmentKey machine ≠ []) :
    (generate python machine options draft outputDir).requests =
      (apiCall python machine options draft).requests := by
  rw [generate, hmode]
  dsimp only
  rw [if_neg hkey]
  cases hcall : (apiCall python machine options draft).result with
  | error error => rfl
  | ok result => exact requests_finish _ _ _ _ _ _ _

/-- The requests of a run of the API that has come to a draft. -/
theorem requests_main_of_draft {draft : Draft} (hprepare : prepare python machine options = .ok draft)
    (hmode : options.mode = .api) (hkey : environmentKey machine ≠ []) :
    (main python machine options).requests = (apiCall python machine options draft).requests := by
  obtain ⟨_, _, _, _, _, hrequired, _⟩ := (prepare_eq_ok_iff _ _ _).mp hprepare
  have hdry : options.mode.isDryRun = false := by
    rw [hmode]
    rfl
  obtain ⟨outputDir, houtput⟩ := Option.ne_none_iff_exists'.mp (hrequired hdry)
  unfold main
  rw [hprepare, hmode, houtput]
  exact requests_generate python machine options hmode hkey

/-- A run that sends something is one of the API, with a key, and has come to a draft. -/
theorem exists_apiCall_of_requests (h : (main python machine options).requests ≠ []) :
    options.mode = .api ∧ environmentKey machine ≠ [] ∧
      ∃ draft, prepare python machine options = .ok draft ∧
        (main python machine options).requests =
          (apiCall python machine options draft).requests := by
  unfold main at h ⊢
  cases hprepare : prepare python machine options with
  | error failure =>
      rw [hprepare] at h
      exact absurd rfl h
  | ok draft =>
      rw [hprepare] at h
      dsimp only at h ⊢
      cases hmode : options.mode with
      | dryRun promptOutput =>
          rw [hmode] at h
          exact absurd (requests_dryRun python machine draft promptOutput) h
      | responseFile path =>
          rw [hmode] at h
          cases houtput : options.outputDir with
          | none =>
              rw [houtput] at h
              exact absurd rfl h
          | some outputDir =>
              rw [houtput] at h
              dsimp only at h
              rw [generate, hmode] at h
              dsimp only at h
              split at h
              · exact absurd rfl h
              · exact absurd (requests_finish _ _ _ _ _ _ _) h
      | api =>
          have hkey : environmentKey machine ≠ [] := by
            intro hkey
            rw [hmode] at h
            cases houtput : options.outputDir with
            | none =>
                rw [houtput] at h
                exact h rfl
            | some outputDir =>
                rw [houtput] at h
                dsimp only at h
                rw [generate, hmode] at h
                dsimp only at h
                rw [if_pos hkey] at h
                exact h rfl
          refine ⟨rfl, hkey, draft, rfl, ?_⟩
          rw [← requests_main_of_draft python machine options hprepare hmode hkey, main, hprepare, hmode]

/-! ## A dry run of the same options -/

/-- The same options with `--dry-run`. -/
def Options.dry (options : Options) (promptOutput : Option Path) : Options :=
  { options with mode := .dryRun promptOutput }

/-- A run has shown a draft and has sent nothing: it has printed the manifest, and the
prompt unless there is a file for it, which then holds the prompt. -/
structure Shown (run : Generation) (promptOutput : Option Path) (draft : Draft) : Prop where
  silent : run.requests = []
  manifest : run.printed.head? =
    some (render indented (asciiSpelling python.number) 0 draft.manifest)
  printed : promptOutput = none → draft.prompt ∈ run.printed
  saved : ∀ path key bytes, promptOutput = some path → run.result = .ok () →
    leadsTo run.store path = some key → run.store key = some (.file bytes) →
      encodeText draft.prompt = some bytes

variable {python machine options}

/-- A draft does not depend on the mode. -/
theorem prepare_dry {draft : Draft} (h : prepare python machine options = .ok draft)
    (promptOutput : Option Path) :
    prepare python machine (options.dry promptOutput) = .ok draft := by
  obtain ⟨project, output, selected, coverage, hproject, _, houtput, hseparate, hselected, hne,
    hcoverage, rfl⟩ := (prepare_eq_ok_iff _ _ _).mp h
  exact (prepare_eq_ok_iff _ _ _).mpr ⟨project, output, selected, coverage, hproject, nofun,
    houtput, hseparate, hselected, hne, hcoverage, rfl⟩

/-- A prompt that has been saved can be read in its file. -/
theorem encodeText_of_savePrompt {fs left : FileSystem} {path : Path} {prompt : Name} {key : Key}
    {bytes : List Char} (h : savePrompt fs path prompt = (left, .ok ()))
    (hkey : leadsTo left path = some key) (hbytes : left key = some (.file bytes)) :
    encodeText prompt = some bytes := by
  unfold savePrompt at h
  split at h
  · cases h
  · split at h
    · cases h
    · rename_i made _
      have hleft : (writeText made path prompt).1 = left := by rw [h]
      have hlinks := (touches_writeText made path prompt).link
      rw [hleft] at hlinks
      rw [leadsTo_congr hlinks] at hkey
      apply encodeText_of_writeText _ hkey
      · rw [hleft]
        exact hbytes
      · rw [h]

theorem shown_dryRun (python : Python) (machine : Machine) (draft : Draft)
    (promptOutput : Option Path) :
    Shown python (dryRun python machine draft promptOutput) promptOutput draft := by
  refine ⟨requests_dryRun python machine draft promptOutput, ?_, ?_, ?_⟩
  · unfold dryRun
    cases promptOutput with
    | none => rfl
    | some path =>
        dsimp only
        split <;> rfl
  · rintro rfl
    simp [dryRun]
  · intro path key bytes hpath hok hkey hbytes
    subst hpath
    unfold dryRun at hok hkey hbytes
    dsimp only at hok hkey hbytes
    cases hsave : savePrompt machine.disk.store path draft.prompt with
    | mk left result =>
        rw [hsave] at hok hkey hbytes
        cases result with
        | error failure => cases hok
        | ok _ => exact encodeText_of_savePrompt hsave hkey hbytes

variable (python machine options)

end Runs

/-! ## The key -/

/-- A key that a run can send: something is left of it when it is stripped, and that is a
value of a header. -/
structure SendableKey (key : Name) : Prop where
  given : strip key ≠ []
  headerValue : isHeaderValue (authorization (strip key)) = true

/-- The same machine with another key. -/
def Machine.withKey (machine : Machine) (key : Name) : Machine := { machine with apiKey := some key }

/-- The request without its header for the key. -/
def Request.withoutKey (request : Request) : Request :=
  { request with headers := request.headers.filter fun header => header.1 ≠ text "Authorization" }

/-- The run with its requests without their headers for the key. -/
def Generation.withoutKey (run : Generation) : Generation :=
  { run with requests := run.requests.map Request.withoutKey }

section Key

variable (python : Python) (machine : Machine) (options : Options) {key key' : Name}

theorem withoutKey_buildRequest (arguments : Arguments) :
    (buildRequest arguments).withoutKey =
      { method := text "POST"
        url := rstripSlash arguments.apiBase ++ text "/responses"
        headers :=
          [(text "Content-Type", text "application/json"),
            (text "User-Agent", text "icflow-llm-test-generation/1")]
        payload := payload arguments } := by
  have hcontent : text "Content-Type" ≠ text "Authorization" := by decide
  have hagent : text "User-Agent" ≠ text "Authorization" := by decide
  simp [buildRequest, Request.withoutKey, hcontent, hagent]

/-- The loop looks at nothing of the request that it sends. -/
theorem requestLoop_withoutKey (decode : Name → Option (Json Nat)) (outcomes : Nat → Outcome)
    (retries : Int) {request request' : Request} (h : request.withoutKey = request'.withoutKey)
    (remaining : List Nat) :
    (requestLoop decode request outcomes retries remaining).requests.map Request.withoutKey =
        (requestLoop decode request' outcomes retries remaining).requests.map Request.withoutKey ∧
      (requestLoop decode request outcomes retries remaining).sleeps =
        (requestLoop decode request' outcomes retries remaining).sleeps ∧
      (requestLoop decode request outcomes retries remaining).result =
        (requestLoop decode request' outcomes retries remaining).result := by
  induction remaining with
  | nil => exact ⟨rfl, rfl, rfl⟩
  | cons attempt remaining ih =>
      obtain ⟨hrequests, hsleeps, hresult⟩ := ih
      unfold requestLoop
      cases attemptEnds decode retries attempt (outcomes attempt) with
      | some result =>
          refine ⟨?_, rfl, rfl⟩
          rw [List.map_singleton, List.map_singleton, h]
      | none =>
          dsimp only
          refine ⟨?_, ?_, hresult⟩
          · rw [List.map_cons, List.map_cons, h, hrequests]
          · rw [hsleeps]

theorem apiCall_withoutKey (draft : Draft) (hkey : SendableKey key) (hkey' : SendableKey key') :
    (apiCall python (machine.withKey key) options draft).requests.map Request.withoutKey =
        (apiCall python (machine.withKey key') options draft).requests.map Request.withoutKey ∧
      (apiCall python (machine.withKey key) options draft).sleeps =
        (apiCall python (machine.withKey key') options draft).sleeps ∧
      (apiCall python (machine.withKey key) options draft).result =
        (apiCall python (machine.withKey key') options draft).result := by
  have hsendable : ∀ {name : Name}, SendableKey name →
      isHeaderValue (authorization (environmentKey (machine.withKey name))) = true :=
    fun hname => hname.headerValue
  rw [apiCall_of_isHeaderValue _ _ _ _ (hsendable hkey),
    apiCall_of_isHeaderValue _ _ _ _ (hsendable hkey')]
  unfold callResponsesApi
  have hbase : ∀ name : Name, (callArguments (machine.withKey name) options draft).apiBase =
      options.apiBase := fun _ => rfl
  rw [hbase, hbase]
  cases python.urlparse options.apiBase with
  | none => exact ⟨rfl, rfl, rfl⟩
  | some parsed =>
      obtain ⟨scheme, netloc⟩ := parsed
      dsimp only
      have hrequest : (buildRequest (callArguments (machine.withKey key) options draft)).withoutKey =
          (buildRequest (callArguments (machine.withKey key') options draft)).withoutKey := by
        rw [withoutKey_buildRequest, withoutKey_buildRequest]
        rfl
      split
      · exact ⟨rfl, rfl, rfl⟩
      · exact requestLoop_withoutKey _ _ _ hrequest _

/-- What is written and printed at the end does not depend on the requests. -/
theorem finish_withoutKey (outputDir : Path) (response : Response) {requests requests' : List Request}
    (h : requests.map Request.withoutKey = requests'.map Request.withoutKey) (sleeps : List Nat) :
    (finish python (machine.withKey key) options outputDir response requests sleeps).withoutKey =
      (finish python (machine.withKey key') options outputDir response requests' sleeps).withoutKey := by
  have hdisk : ∀ name : Name, (machine.withKey name).disk = machine.disk := fun _ => rfl
  unfold finish
  rw [hdisk, hdisk]
  cases materializeSuite python.lower machine.disk outputDir response.generated options.force with
  | mk fs result =>
      cases result with
      | error failure =>
          simp only [Generation.withoutKey, h]
      | ok written =>
          dsimp only
          cases resolve fs outputDir with
          | none => simp only [Generation.withoutKey, h]
          | some outputRoot =>
              dsimp only
              cases writeReports python.toPrinter fs outputRoot response with
              | mk fs' ending =>
                  cases ending with
                  | error failure => simp only [Generation.withoutKey, h]
                  | ok _ => simp only [Generation.withoutKey, h]

/-- Of two runs that differ only in their keys, which both can be sent, one sends, writes and
prints what the other does, but for the header of its requests that has the key. -/
theorem main_withoutKey (hkey : SendableKey key) (hkey' : SendableKey key') :
    (main python (machine.withKey key) options).withoutKey =
      (main python (machine.withKey key') options).withoutKey := by
  have hprepare : ∀ name : Name, prepare python (machine.withKey name) options =
      prepare python machine options := fun _ => rfl
  unfold main
  rw [hprepare, hprepare]
  cases prepare python machine options with
  | error failure => rfl
  | ok draft =>
      dsimp only
      cases hmode : options.mode with
      | dryRun promptOutput => rfl
      | responseFile path =>
          cases options.outputDir with
          | none => rfl
          | some outputDir =>
              have hread : ∀ name : Name, readResponseFile (machine.withKey name) path =
                  readResponseFile machine path := fun _ => rfl
              dsimp only
              rw [generate, generate, hmode]
              dsimp only
              rw [hread, hread]
              cases readResponseFile machine path with
              | error failure => rfl
              | ok generated => exact finish_withoutKey python machine options _ _ rfl _
      | api =>
          cases options.outputDir with
          | none => rfl
          | some outputDir =>
              obtain ⟨hrequests, hsleeps, hresult⟩ :=
                apiCall_withoutKey python machine options draft hkey hkey'
              have hgiven : environmentKey (machine.withKey key) ≠ [] := hkey.given
              have hgiven' : environmentKey (machine.withKey key') ≠ [] := hkey'.given
              dsimp only
              rw [generate, generate, hmode]
              dsimp only
              rw [if_neg hgiven, if_neg hgiven', hsleeps, hresult]
              cases (apiCall python (machine.withKey key') options draft).result with
              | error error =>
                  simp only [Generation.withoutKey, hrequests]
                  rfl
              | ok result =>
                  exact finish_withoutKey python machine options _ _ hrequests _

end Key

/-! ## A machine that calls the API -/

/-- A machine with a project and nothing else on its disk. -/
def machineWith (project : Project) : Machine where
  project := some project
  disk := emptyDisk
  special := fun _ => none
  apiKey := some (text "key")
  outcomes := fun _ => .urlError []

/-- Its Python, for names of ASCII letters. -/
def asciiPython : Python :=
  ⟨{ plainPrinter with number := fun _ => text "0" }, asciiLower, splitHttps⟩

def callingOptions : Options where
  outputDir := some generatedDirectory
  model := text "m"
  apiBase := text "https://api"
  testCount := 12
  existingTestCommand := []
  coverageReport := none
  extraInstructions := []
  limits := Limits.default
  maxOutputTokens := 24000
  reasoningEffort := text "medium"
  retries := 2
  mode := .api
  force := false

/-- Two keys, one with blanks around it. -/
theorem main_withoutKey_machineWith :
    (main asciiPython ((machineWith secretProject).withKey (text "one")) callingOptions).withoutKey =
      (main asciiPython ((machineWith secretProject).withKey (text " two\n"))
        callingOptions).withoutKey := by
  have hone : SendableKey (text "one") := ⟨by decide, by decide⟩
  have htwo : SendableKey (text " two\n") := ⟨by decide, by decide⟩
  exact main_withoutKey asciiPython (machineWith secretProject) callingOptions hone htwo

end Icflow.Generate
