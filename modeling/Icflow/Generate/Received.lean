import Icflow.Generate.Main

set_option autoImplicit false

/-!
# The suite a run receives

Whether it comes from the response file or from the API, the suite is what `json.loads`
makes of a text: dictionaries, and strings of code points.
-/

namespace Icflow.Generate

open Icflow.Foundation

/-- What `json.loads` can return. -/
structure Loaded (value : Json Nat) : Prop where
  python : PythonValue value
  distinct : Distinct value

theorem loaded_of_pythonLoads {input : Name} {value : Json Nat} (hinput : CodePoints input)
    (h : pythonLoads input = some value) : Loaded value := by
  obtain ⟨read, hread, rfl⟩ := Option.map_eq_some_iff.mp h
  exact ⟨holds_collapse read (pythonValue_of_loads hinput hread), distinct_collapse read⟩

theorem codePoints_characters (characters : List Char) : CodePoints (characters.map Char.toNat) := by
  intro point hpoint
  obtain ⟨c, _, rfl⟩ := List.mem_map.mp hpoint
  exact (isWhole_toNat c).1

theorem distinct_of_names {members : List (Name × Json Nat)} {names : List Name}
    (hnames : names.Pairwise (· ≠ ·)) (h : members.map Prod.fst = names) :
    members.Pairwise fun first second => first.1 ≠ second.1 := by
  rw [← h] at hnames
  exact List.pairwise_map.mp hnames

/-! ## The strings of a response -/

section Fields

variable {members : List (Name × Json Nat)}

theorem pythonValue_of_getField (hmembers : PythonMembers members) {field : Name} {value : Json Nat}
    (h : getField members field = some value) : PythonValue value := by
  obtain ⟨before, after, hsplit, _⟩ := List.lookup_eq_some_iff.mp h
  have hmem : (field, value) ∈ members := by
    rw [← List.mem_reverse, hsplit]
    exact List.mem_append_right _ List.mem_cons_self
  exact (holdsMembers_iff.mp hmembers _ hmem).2

theorem codePoints_of_getString (hmembers : PythonMembers members) {field value : Name}
    (h : getString members field = some value) : CodePoints value := by
  obtain ⟨found, hfound, hstring⟩ := Option.bind_eq_some_iff.mp h
  have hpython := pythonValue_of_getField hmembers hfound
  cases found with
  | str characters =>
      obtain rfl := Option.some.inj hstring
      exact hpython
  | null | bool _ | num _ | arr _ | obj _ => cases hstring

theorem eq_obj_of_dictMembers {value : Json Nat}
    (h : dictMembers value = some members) : value = .obj members := by
  cases value with
  | obj inner => rw [Option.some.inj h]
  | null | bool _ | num _ | str _ | arr _ => cases h

theorem pythonMembers_of_dictMembers {value : Json Nat} (hvalue : PythonValue value)
    (h : dictMembers value = some members) : PythonMembers members := by
  cases value with
  | obj inner =>
      obtain rfl := Option.some.inj h
      exact hvalue
  | null | bool _ | num _ | str _ | arr _ => cases h

theorem holdsElements_iff {Strings : Name → Prop} {Numbers : List Char → Prop}
    {elements : List (Json Nat)} :
    HoldsElements Strings Numbers elements ↔ ∀ value ∈ elements, Holds Strings Numbers value := by
  induction elements with
  | nil => exact iff_of_true trivial (List.forall_mem_nil _)
  | cons value elements ih => rw [HoldsElements, ih, List.forall_mem_cons]

theorem pythonValue_of_iterate {value : Json Nat} {items : List (Json Nat)} (hvalue : PythonValue value)
    (h : iterate value = some items) : ∀ item ∈ items, PythonValue item := by
  cases value with
  | arr elements =>
      obtain rfl := Option.some.inj h
      exact holdsElements_iff.mp hvalue
  | str characters =>
      obtain rfl := Option.some.inj h
      intro item hitem
      obtain ⟨point, hpoint, rfl⟩ := List.mem_map.mp hitem
      exact List.forall_mem_singleton.mpr (hvalue point hpoint)
  | obj inner =>
      obtain rfl := Option.some.inj h
      intro item hitem
      obtain ⟨name, hname, rfl⟩ := List.mem_map.mp hitem
      obtain ⟨member, hmember, rfl⟩ := List.mem_map.mp (List.mem_eraseDups.mp hname)
      exact (holdsMembers_iff.mp hvalue member hmember).1
  | null | bool _ | num _ => cases h

theorem pythonValue_getD (hmembers : PythonMembers members) (field : Name) :
    PythonValue ((getField members field).getD (.arr [])) := by
  cases hfield : getField members field with
  | none => exact trivial
  | some value => exact pythonValue_of_getField hmembers hfield

theorem codePoints_contentText {contents : List (Json Nat)} {value : Name}
    (hcontents : ∀ content ∈ contents, PythonValue content)
    (h : contentText contents = .ok (some value)) : CodePoints value := by
  induction contents with
  | nil => cases h
  | cons content contents ih =>
      obtain ⟨hcontent, hrest⟩ := List.forall_mem_cons.mp hcontents
      unfold contentText at h
      cases hdict : dictMembers content with
      | none =>
          rw [hdict] at h
          exact ih hrest h
      | some members =>
          rw [hdict] at h
          dsimp only at h
          split at h
          · cases h
          · split at h
            · split at h
              · rename_i found hfound
                cases h
                exact codePoints_of_getString (pythonMembers_of_dictMembers hcontent hdict) hfound
              · exact ih hrest h
            · exact ih hrest h

theorem codePoints_itemsText {items : List (Json Nat)} {value : Name}
    (hitems : ∀ item ∈ items, PythonValue item) (h : itemsText items = .ok value) :
    CodePoints value := by
  induction items with
  | nil => cases h
  | cons item items ih =>
      obtain ⟨hitem, hrest⟩ := List.forall_mem_cons.mp hitems
      unfold itemsText at h
      cases hdict : dictMembers item with
      | none =>
          rw [hdict] at h
          exact ih hrest h
      | some members =>
          rw [hdict] at h
          dsimp only at h
          have hmembers := pythonMembers_of_dictMembers hitem hdict
          split at h
          · exact ih hrest h
          · split at h
            · cases h
            · rename_i contents hcontents
              have hvalues := pythonValue_of_iterate (pythonValue_getD hmembers _) hcontents
              split at h
              · cases h
              · rename_i found hfound
                cases h
                exact codePoints_contentText hvalues hfound
              · exact ih hrest h

/-- The output text of a response is made of code points. -/
theorem codePoints_responseOutputText {value : Name} (hmembers : PythonMembers members)
    (h : responseOutputText members = .ok value) : CodePoints value := by
  unfold responseOutputText at h
  split at h
  · rename_i direct hdirect
    cases h
    exact codePoints_of_getString hmembers (Option.filter_eq_some_iff.mp hdirect).1
  · split at h
    · cases h
    · rename_i items hitems
      exact codePoints_itemsText (pythonValue_of_iterate (pythonValue_getD hmembers _) hitems) h

end Fields

/-! ## The two sources -/

/-- The suite of a reply is loaded, and so is the reply. -/
theorem loaded_of_readReply {body : List Char} {result : Result}
    (h : readReply pythonLoads body = .ok result) : Loaded result.1 ∧ Loaded (.obj result.2) := by
  unfold readReply at h
  split at h
  · cases h
  · rename_i characters _
    split at h
    · cases h
    · rename_i value hvalue
      have hloaded := loaded_of_pythonLoads (codePoints_characters characters) hvalue
      split at h
      · cases h
      · rename_i found hresponse
        cases h
        unfold readResponse at hresponse
        split at hresponse
        · cases hresponse
        · rename_i members hdict
          have hmembers := pythonMembers_of_dictMembers hloaded.python hdict
          have hobject : value = .obj members := eq_obj_of_dictMembers hdict
          split at hresponse
          · cases hresponse
          · split at hresponse
            · cases hresponse
            · rename_i output houtput
              split at hresponse
              · cases hresponse
              · rename_i generated hgenerated
                cases hresponse
                rw [hobject] at hloaded
                exact ⟨loaded_of_pythonLoads (codePoints_responseOutputText hmembers houtput)
                  hgenerated, hloaded⟩

theorem exists_readReply_of_requestLoop {decode : Name → Option (Json Nat)} {request : Request}
    {outcomes : Nat → Outcome} {retries : Int} {remaining : List Nat} {result : Result}
    (h : (requestLoop decode request outcomes retries remaining).result = .ok result) :
    ∃ body, readReply decode body = .ok result := by
  induction remaining with
  | nil => cases h
  | cons attempt remaining ih =>
      unfold requestLoop at h
      split at h
      · rename_i ending hending
        have hends : ending = .ok result := h
        subst hends
        cases houtcome : outcomes attempt with
        | reply body =>
            rw [houtcome] at hending
            exact ⟨body, Option.some.inj hending⟩
        | httpError code details =>
            rw [houtcome] at hending
            simp [attemptEnds] at hending
        | urlError reason =>
            rw [houtcome] at hending
            simp [attemptEnds] at hending
      · exact ih h

section Sources

variable {python : Python} {machine : Machine} {options : Options} {draft : Draft}

theorem loaded_of_apiCall {result : Result}
    (h : (apiCall python machine options draft).result = .ok result) :
    Loaded result.1 ∧ Loaded (.obj result.2) := by
  rcases apiCall_cases python machine options draft with hcall | hcall
  swap
  · rw [hcall] at h
    cases h
  rw [hcall, callResponsesApi] at h
  split at h
  · cases h
  · split at h
    · cases h
    · obtain ⟨body, hbody⟩ := exists_readReply_of_requestLoop h
      exact loaded_of_readReply hbody

theorem loaded_of_readResponseFile {path : Path} {generated : Json Nat}
    (h : readResponseFile machine path = .ok generated) : Loaded generated := by
  unfold readResponseFile at h
  split at h
  · cases h
  · split at h
    · cases h
    · rename_i content _
      split at h
      · cases h
      · rename_i value hvalue
        cases h
        exact loaded_of_pythonLoads (codePoints_characters _) hvalue

/-- `generation_source` -/
def Mode.generationSource : Mode → Name
  | .responseFile _ => text "response-file"
  | .dryRun _ | .api => text "openai-responses-api"

/-- What a run has received when it comes to writing. -/
structure Received (options : Options) (draft : Draft) (response : Response) : Prop where
  generated : Loaded response.generated
  rawResponse : Loaded (.obj response.rawResponse)
  source : response.source = options.mode.generationSource
  manifest : response.manifest = draft.manifest

theorem received_fileResponse {path : Path} {generated : Json Nat}
    (hmode : options.mode = .responseFile path)
    (h : readResponseFile machine path = .ok generated) :
    Received options draft (fileResponse draft generated) where
  generated := loaded_of_readResponseFile h
  rawResponse := by
    have hpoints : ∀ literal ∈ ["id", "model", "status", "usage", "offline_fixture"],
        CodePoints (text literal) := by
      unfold CodePoints
      decide
    have hnames : [text "id", text "model", text "status", text "usage"].Pairwise (· ≠ ·) := by
      decide
    refine ⟨⟨hpoints _ ?_, trivial, hpoints _ ?_, trivial, hpoints _ ?_, hpoints _ ?_, hpoints _ ?_,
      trivial, trivial⟩, distinct_of_names hnames rfl, trivial, trivial, trivial, trivial, trivial⟩
    all_goals simp
  source := by rw [hmode, fileResponse, Mode.generationSource]
  manifest := rfl

theorem received_apiResponse {result : Result} (hmode : options.mode = .api)
    (h : (apiCall python machine options draft).result = .ok result) :
    Received options draft (apiResponse draft result) where
  generated := (loaded_of_apiCall h).1
  rawResponse := (loaded_of_apiCall h).2
  source := by rw [hmode, apiResponse, Mode.generationSource]
  manifest := rfl

/-- From the draft on, a run that succeeds writes out what it has received. -/
theorem exists_finish_of_generate {outputDir : Path} (hmode : options.mode.isDryRun = false)
    (h : (generate python machine options draft outputDir).result = .ok ()) :
    ∃ response requests sleeps, Received options draft response ∧
      generate python machine options draft outputDir =
        finish python machine options outputDir response requests sleeps := by
  unfold generate at h ⊢
  cases hmodes : options.mode with
  | dryRun promptOutput =>
      rw [hmodes] at hmode
      cases hmode
  | responseFile path =>
      rw [hmodes] at h
      dsimp only at h ⊢
      cases hread : readResponseFile machine path with
      | error failure =>
          rw [hread] at h
          cases h
      | ok generated => exact ⟨_, _, _, received_fileResponse hmodes hread, rfl⟩
  | api =>
      rw [hmodes] at h
      dsimp only at h ⊢
      split at h
      · cases h
      · rename_i hkey
        rw [if_neg hkey]
        cases hcall : (apiCall python machine options draft).result with
        | error error =>
            rw [hcall] at h
            cases h
        | ok result => exact ⟨_, _, _, received_apiResponse hmodes hcall, rfl⟩

variable (python machine) in
/-- A run with a suite is what `main` does when it is not dry. -/
theorem main_of_not_dryRun (hmode : options.mode.isDryRun = false) :
    (∃ failure, main python machine options = stopped machine failure) ∨
      ∃ draft outputDir, prepare python machine options = .ok draft ∧
        options.outputDir = some outputDir ∧
          main python machine options = generate python machine options draft outputDir := by
  unfold main
  cases hprepare : prepare python machine options with
  | error failure => exact Or.inl ⟨failure, rfl⟩
  | ok draft =>
      dsimp only
      cases hmodes : options.mode with
      | dryRun promptOutput =>
          rw [hmodes] at hmode
          cases hmode
      | responseFile path =>
          cases options.outputDir with
          | none => exact Or.inl ⟨.outputDirRequired, rfl⟩
          | some outputDir => exact Or.inr ⟨draft, outputDir, rfl, rfl, rfl⟩
      | api =>
          cases options.outputDir with
          | none => exact Or.inl ⟨.outputDirRequired, rfl⟩
          | some outputDir => exact Or.inr ⟨draft, outputDir, rfl, rfl, rfl⟩

/-- A run that succeeds and is not dry writes out what it has received. -/
theorem exists_finish_of_ok (hmode : options.mode.isDryRun = false)
    (h : (main python machine options).result = .ok ()) :
    ∃ draft outputDir response requests sleeps, prepare python machine options = .ok draft ∧
      options.outputDir = some outputDir ∧ Received options draft response ∧
        main python machine options = finish python machine options outputDir response requests sleeps := by
  rcases main_of_not_dryRun python machine hmode with
    ⟨failure, hmain⟩ | ⟨draft, outputDir, hprepare, houtput, hmain⟩
  · rw [hmain] at h
    cases h
  · rw [hmain] at h ⊢
    obtain ⟨response, requests, sleeps, hreceived, heq⟩ := exists_finish_of_generate hmode h
    exact ⟨draft, outputDir, response, requests, sleeps, hprepare, houtput, hreceived, heq⟩

end Sources

end Icflow.Generate
