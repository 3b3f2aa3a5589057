import Icflow.Generate.Replay

set_option autoImplicit false

/-!
# The body of a request

`json.dumps` prints the payload in ASCII and on one line, so that it can always be encoded.
What decodes the body finds the prompt and the schema in it as they were.
-/

namespace Icflow.Generate

open Icflow.Foundation

/-- `json.dumps(payload).encode("utf-8")` -/
def Request.body (number : List Char → Name) (request : Request) : Option (List Char) :=
  encodeText (render compact (asciiSpelling number) 0 request.payload)

/-- `json.loads(body.decode("utf-8"))` -/
def readBody (bytes : List Char) : Option (Json Nat) :=
  (utf8Decode bytes).bind fun content => pythonLoads (content.map Char.toNat)

/-- `received["input"]` -/
def receivedPrompt (received : Json Nat) : Option Name :=
  (dictMembers received).bind fun members => getString members (text "input")

/-- `received["instructions"]` -/
def receivedInstructions (received : Json Nat) : Option Name :=
  (dictMembers received).bind fun members => getString members (text "instructions")

/-- `received["text"]["format"]["schema"]` -/
def receivedSchema (received : Json Nat) : Option (Json Nat) :=
  (((dictMembers received).bind fun members => getField members (text "text")).bind fun format =>
    (dictMembers format).bind fun members => getField members (text "format")).bind fun schema =>
      (dictMembers schema).bind fun members => getField members (text "schema")

/-! ## Strings and dictionaries of a payload -/

/-- A string without first halves of surrogate pairs, as the system and decoded texts give it. -/
def Whole (value : Name) : Prop := ∀ point ∈ value, IsWhole point

theorem whole_text (literal : String) : Whole (text literal) := by
  intro point hpoint
  obtain ⟨c, _, rfl⟩ := List.mem_map.mp hpoint
  exact isWhole_toNat c

theorem whole_systemInstructions : Whole systemInstructions := by
  have hascii : systemInstructions.all (fun point => decide (point < 128)) = true := by
    decide +kernel
  intro point hpoint
  have hsmall := of_decide_eq_true (List.all_eq_true.mp hascii point hpoint)
  unfold IsWhole
  omega

section Schemas

variable {Numbers : List Char → Prop} {items : Json Nat} {properties : List (Name × Json Nat)}

theorem holds_stringSchema : Holds Whole Numbers stringSchema := ⟨whole_text _, whole_text _, trivial⟩

theorem holds_arraySchema (h : Holds Whole Numbers items) : Holds Whole Numbers (arraySchema items) :=
  ⟨whole_text _, whole_text _, whole_text _, h, trivial⟩

theorem holds_objectSchema (h : HoldsMembers Whole Numbers properties) :
    Holds Whole Numbers (objectSchema properties) := by
  have hrequired : HoldsElements Whole Numbers (properties.map fun property => .str property.1) := by
    rw [holdsElements_iff, List.forall_mem_map]
    exact fun property hproperty => (holdsMembers_iff.mp h property hproperty).1
  exact ⟨whole_text _, whole_text _, whole_text _, trivial, whole_text _, h, whole_text _, hrequired,
    trivial⟩

theorem holds_responseSchema : Holds Whole Numbers responseSchema := by
  have hentry : Holds Whole Numbers (objectSchema entryProperties) :=
    holds_objectSchema ⟨whole_text _, holds_stringSchema, whole_text _, holds_stringSchema,
      whole_text _, holds_stringSchema, trivial⟩
  exact holds_objectSchema ⟨whole_text _, holds_stringSchema, whole_text _, holds_stringSchema,
    whole_text _, holds_stringSchema, whole_text _, holds_arraySchema hentry, whole_text _,
    holds_arraySchema holds_stringSchema, trivial⟩

theorem distinct_stringSchema : Distinct stringSchema :=
  ⟨List.pairwise_singleton _ _, trivial, trivial⟩

theorem distinct_arraySchema (h : Distinct items) : Distinct (arraySchema items) := by
  have hnames : [text "type", text "items"].Pairwise (· ≠ ·) := by decide
  exact ⟨distinct_of_names hnames rfl, trivial, h, trivial⟩

theorem distinct_objectSchema {names : List Name} (hnames : names.Pairwise (· ≠ ·))
    (hproperties : properties.map Prod.fst = names) (h : DistinctMembers properties) :
    Distinct (objectSchema properties) := by
  have hkeywords : [text "type", text "additionalProperties", text "properties",
      text "required"].Pairwise (· ≠ ·) := by
    decide
  have hrequired : Distinct (.arr (properties.map fun property => .str property.1)) := by
    clear hproperties h
    induction properties with
    | nil => exact trivial
    | cons property properties ih => exact ⟨trivial, ih⟩
  exact ⟨distinct_of_names hkeywords rfl, trivial, trivial,
    ⟨distinct_of_names hnames hproperties, h⟩, hrequired, trivial⟩

theorem distinct_responseSchema : Distinct responseSchema := by
  have hentryNames : [text "path", text "purpose", text "content"].Pairwise (· ≠ ·) := by decide
  have hnames : [text "summary", text "detected_build_system", text "recommended_test_command",
      text "files", text "integration_notes"].Pairwise (· ≠ ·) := by
    decide
  have hstring := distinct_stringSchema
  have hentry : Distinct (objectSchema entryProperties) :=
    distinct_objectSchema hentryNames rfl ⟨hstring, hstring, hstring, trivial⟩
  exact distinct_objectSchema hnames rfl ⟨hstring, hstring, hstring, distinct_arraySchema hentry,
    distinct_arraySchema hstring, trivial⟩

end Schemas

section Payload

variable {arguments : Arguments}

theorem holds_payload {Numbers : List Char → Prop} (hnumbers : ∀ lexeme, Numbers lexeme)
    (hmodel : Whole arguments.model) (hinstructions : Whole arguments.systemInstructions)
    (hprompt : Whole arguments.prompt) (heffort : Whole arguments.reasoningEffort)
    (hschema : Holds Whole Numbers arguments.responseSchema) :
    Holds Whole Numbers (payload arguments) :=
  ⟨whole_text _, hmodel, whole_text _, hinstructions, whole_text _, hprompt, whole_text _, trivial,
    whole_text _, hnumbers _, whole_text _, ⟨whole_text _, heffort, trivial⟩, whole_text _,
    ⟨whole_text _, ⟨whole_text _, whole_text _, whole_text _, whole_text _, whole_text _, trivial,
      whole_text _, hschema, trivial⟩, whole_text _, whole_text _, trivial⟩, trivial⟩

theorem distinct_payload (hschema : Distinct arguments.responseSchema) :
    Distinct (payload arguments) := by
  have hnames : [text "model", text "instructions", text "input", text "store",
      text "max_output_tokens", text "reasoning", text "text"].Pairwise (· ≠ ·) := by
    decide
  have htext : [text "format", text "verbosity"].Pairwise (· ≠ ·) := by decide
  have hformat : [text "type", text "name", text "strict", text "schema"].Pairwise (· ≠ ·) := by
    decide
  exact ⟨distinct_of_names hnames rfl, trivial, trivial, trivial, trivial, trivial,
    ⟨List.pairwise_singleton _ _, trivial, trivial⟩,
    ⟨distinct_of_names htext rfl,
      ⟨distinct_of_names hformat rfl, trivial, trivial, trivial, hschema, trivial⟩, trivial, trivial⟩,
    trivial⟩

end Payload

/-! ## The round trip -/

section Body

variable {number : List Char → Name} (hnumber : PrintsNumbers number) (request : Request)
include hnumber

theorem readBody_of_whole (hpayload : Holds Whole (fun _ => True) request.payload)
    (hdistinct : Distinct request.payload) :
    ∃ bytes, request.body number = some bytes ∧
      readBody bytes = some (respelled number request.payload) := by
  have hascii : AsciiPoints (render compact (asciiSpelling number) 0 request.payload) := by
    apply asciiPoints_render
    refine Holds.imp ?_ ?_ request.payload hpayload
    · exact fun value hvalue point hpoint => (hvalue point hpoint).1
    · intro lexeme _ point hpoint
      have hprintable := hnumber.printable lexeme point hpoint
      omega
  have hclean : Clean (render compact (asciiSpelling number) 0 request.payload) := by
    intro point hpoint
    have hsmall := hascii point hpoint
    rw [isSurrogate, decide_eq_false_iff_not]
    omega
  have hpoints : CodePoints (render compact (asciiSpelling number) 0 request.payload) :=
    fun point hpoint => Nat.lt_trans (hascii point hpoint) (by omega)
  obtain ⟨bytes, hbytes⟩ := Option.isSome_iff_exists.mp (encodeText_isSome_iff.mpr hclean)
  have hspells : (asciiSpelling number).Spells (fun value => ∀ point ∈ value, IsWhole point)
      request.payload :=
    Holds.imp (fun _ h => h) (fun lexeme _ => hnumber.isNumber lexeme) request.payload hpayload
  have htail : skipBlank [] = [] := rfl
  have hread := loads_render compact (readable_ascii number) hspells htail
  rw [List.append_nil] at hread
  refine ⟨bytes, hbytes, ?_⟩
  rw [readBody, utf8Decode_of_encodeText hpoints hbytes, Option.bind_some,
    map_toNat_map_ofNat hpoints hclean, pythonLoads, hread, Option.map_some,
    collapse_of_distinct _ (distinct_respelled _ request.payload hdistinct)]
  rfl

end Body

/-- The body of a request can be encoded, and what decodes it finds what was to be sent. -/
theorem body_reads_back (python : Python) (machine : Machine) (options : Options) (draft : Draft)
    (hnumber : PrintsNumbers python.number) (hmodel : Whole options.model)
    (heffort : Whole options.reasoningEffort) (hprompt : Whole draft.prompt) :
    ∃ bytes received, (buildRequest (callArguments machine options draft)).body python.number =
        some bytes ∧ readBody bytes = some received ∧
      receivedPrompt received = some draft.prompt ∧
        receivedInstructions received = some systemInstructions ∧
          receivedSchema received = some responseSchema := by
  have hpayload : Holds Whole (fun _ => True) (payload (callArguments machine options draft)) :=
    holds_payload (fun _ => trivial) hmodel whole_systemInstructions hprompt heffort
      holds_responseSchema
  have hdistinct : Distinct (payload (callArguments machine options draft)) :=
    distinct_payload distinct_responseSchema
  obtain ⟨bytes, hbody, hread⟩ := readBody_of_whole hnumber
    (buildRequest (callArguments machine options draft)) hpayload hdistinct
  exact ⟨bytes, _, hbody, hread, rfl, rfl, rfl⟩

theorem body_reads_back_replayOptions :
    ∃ bytes received, (buildRequest (callArguments replayMachine replayOptions
        ⟨text "p", .null⟩)).body asSpelled = some bytes ∧ readBody bytes = some received ∧
      receivedPrompt received = some (text "p") ∧
        receivedInstructions received = some systemInstructions ∧
          receivedSchema received = some responseSchema :=
  body_reads_back replayPython replayMachine replayOptions ⟨text "p", .null⟩
    printsNumbers_asSpelled (whole_text "m") (whole_text "medium") (whole_text "p")

end Icflow.Generate
