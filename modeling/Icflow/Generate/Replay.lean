import Icflow.Generate.Confidential
import Icflow.Generate.MetadataFiles
import Icflow.Generate.Received

set_option autoImplicit false

/-!
# Replaying a saved suite

`generation.json` of one run is the response file of another one.  It is read back as the
suite the first run had, up to the spelling of its numbers, which nothing depends on: the
second run does what it would do with the suite itself.
-/

namespace Icflow.Generate

open Icflow.Foundation

/-- What Python documents of the numbers it prints: they are printable numbers of JSON, and
what is read from one is printed the same. -/
structure PrintsNumbers (number : List Char → Name) : Prop where
  isNumber : ∀ lexeme, NumberText (number lexeme)
  printable : ∀ lexeme, ∀ point ∈ number lexeme, 32 ≤ point ∧ point < 127
  stable : ∀ lexeme, number ((number lexeme).map Char.ofNat) = number lexeme

/-! ## The text of a report -/

section Text

variable {number : List Char → Name} (hnumber : PrintsNumbers number)

/-- A code point that `read_text` leaves as it is. -/
def Untranslated (point : Nat) : Prop := point ≠ 13 ∧ point < 0x110000

theorem untranslated_escapePoint {point : Nat} (h : point < 0x110000) :
    ∀ other ∈ escapePoint point, Untranslated other := by
  unfold escapePoint
  cases hlookup : shortEscapes.lookup point with
  | some escape =>
      have hshort : ∀ entry ∈ shortEscapes, ∀ other ∈ entry.2, other ≠ 13 ∧ other < 0x110000 := by
        decide
      exact hshort _ (mem_shortEscapes hlookup)
  | none =>
      dsimp only
      split
      · intro other hother
        rcases List.mem_append.mp hother with hprefix | hdigits
        · have hsmall : ∀ point ∈ text "\\u00", point ≠ 13 ∧ point < 0x110000 := by decide
          exact hsmall other hprefix
        · simp only [List.mem_cons, List.not_mem_nil, or_false] at hdigits
          unfold Untranslated
          rcases hdigits with rfl | rfl
          · unfold hexDigit
            split <;> omega
          · unfold hexDigit
            split <;> omega
      · intro other hother
        rw [List.mem_singleton.mp hother]
        unfold Untranslated
        omega

include hnumber

theorem writes_untranslated :
    Writes indented (unicodeSpelling number) CodePoints (fun _ => True) Untranslated where
  printable := by
    intro point hlow hhigh
    unfold Untranslated
    omega
  layout := by
    intro indent point hpoint
    have hlines : ∀ other ∈ newLine indent, other = 10 ∨ other = 32 := by
      intro other hother
      rcases List.mem_append.mp hother with hbreak | hspace
      · exact Or.inl (List.mem_singleton.mp hbreak)
      · exact Or.inr (List.eq_of_mem_replicate hspace)
    have hline : point ∈ newLine indent := by
      have hpoint' : (point ∈ newLine indent ∨ point ∈ newLine indent) ∨ point ∈ newLine indent := by
        rwa [← List.mem_append, ← List.mem_append]
      rwa [or_self, or_self] at hpoint'
    unfold Untranslated
    rcases hlines point hline with rfl | rfl <;> omega
  string := by
    intro value hvalue other hother
    obtain ⟨point, hpoint, hmem⟩ := List.mem_flatMap.mp hother
    exact untranslated_escapePoint (hvalue point hpoint) other hmem
  number := by
    intro lexeme _ point hpoint
    have hrange := hnumber.printable lexeme point hpoint
    unfold Untranslated
    omega

theorem untranslated_dumps {generated : Json Nat} (hgenerated : PythonValue generated) :
    ∀ point ∈ dumps number 0 generated ++ text "\n", Untranslated point := by
  have hprinted := writes_render (writes_untranslated hnumber) 0 generated hgenerated
  rw [render_unicode] at hprinted
  rw [List.forall_mem_append]
  refine ⟨hprinted, ?_⟩
  have hbreak : ∀ point ∈ text "\n", point ≠ 13 ∧ point < 0x110000 := by decide
  exact hbreak

/-- The text that is printed for a value of dictionaries is read as that value. -/
theorem pythonLoads_dumps {generated : Json Nat} (hgenerated : PythonValue generated)
    (hdistinct : Distinct generated) :
    pythonLoads (dumps number 0 generated ++ text "\n") = some (respelled number generated) := by
  have hspells : (unicodeSpelling number).Spells (fun _ => True) generated := by
    refine Holds.imp ?_ ?_ generated hgenerated
    · exact fun _ _ => trivial
    · exact fun lexeme _ => hnumber.isNumber lexeme
  have htail : skipBlank (text "\n") = [] := rfl
  have hread := loads_render indented (readable_unicode number) hspells htail
  rw [render_unicode] at hread
  rw [pythonLoads, hread, Option.map_some,
    collapse_of_distinct _ (distinct_respelled _ generated hdistinct)]
  rfl

omit hnumber in
theorem universalNewlines_of_notMem {content : List Char} (h : '\r' ∉ content) :
    universalNewlines content = content := by
  induction content with
  | nil => rfl
  | cons c content ih =>
      rw [List.mem_cons, not_or] at h
      obtain ⟨hc, hrest⟩ := h
      rw [universalNewlines]
      · rw [ih hrest]
      · intro rest hreturn _
        exact hc hreturn.symm
      · intro hreturn
        exact hc hreturn.symm

omit hnumber in
/-- What a text is encoded to is decoded to it. -/
theorem utf8Decode_of_encodeText {content : Name} {bytes : List Char} (hpoints : CodePoints content)
    (h : encodeText content = some bytes) : utf8Decode bytes = some (content.map Char.ofNat) := by
  have hclean : Clean content := by
    rw [← encodeText_isSome_iff, h]
    rfl
  have hbytes : content.mapM encodePoint = some (content.map utf8Bytes) := by
    clear h
    induction content with
    | nil => rfl
    | cons point content ih =>
        obtain ⟨hpoint, hrest⟩ := List.forall_mem_cons.mp hclean
        have hencode : encodePoint point = some (utf8Bytes point) := by
          rw [encodePoint, hpoint]
          rfl
        rw [List.mapM_cons, hencode, ih (List.forall_mem_cons.mp hpoints).2 hrest]
        rfl
  rw [encodeText, hbytes, Option.map_some, Option.some.injEq] at h
  rw [← h, ← List.flatMap_def]
  apply utf8Decode_flatMap_utf8Bytes
  intro point hpoint
  refine ⟨hpoints point hpoint, ?_⟩
  have hplain := hclean point hpoint
  rwa [isSurrogate, decide_eq_false_iff_not] at hplain

omit hnumber in
theorem toNat_ofNat_of_clean {point : Nat} (hpoint : point < 0x110000)
    (hplain : isSurrogate point = false) : (Char.ofNat point).toNat = point := by
  rw [isSurrogate, decide_eq_false_iff_not] at hplain
  have hvalid : point.isValidChar := by
    by_cases hsmall : point < 0xD800
    · exact Or.inl hsmall
    · exact Or.inr ⟨by omega, hpoint⟩
  rw [Char.ofNat, dif_pos hvalid]
  rfl

omit hnumber in
theorem map_toNat_map_ofNat {content : Name} (hpoints : CodePoints content) (hclean : Clean content) :
    (content.map Char.ofNat).map Char.toNat = content := by
  have hid : ∀ point ∈ content, (Char.toNat ∘ Char.ofNat) point = id point :=
    fun point hpoint => toNat_ofNat_of_clean (hpoints point hpoint) (hclean point hpoint)
  rw [List.map_map, List.map_congr_left hid, List.map_id]

/-- `json.loads(path.read_text(encoding="utf-8"))` on the bytes of a file -/
def readJson (bytes : List Char) : Option (Json Nat) :=
  (utf8Decode bytes).bind fun content => pythonLoads ((universalNewlines content).map Char.toNat)

/-- The bytes of a report are read as the value they were printed from. -/
theorem readJson_of_encodeText {generated : Json Nat} {bytes : List Char}
    (hgenerated : PythonValue generated) (hdistinct : Distinct generated)
    (hbytes : encodeText (dumps number 0 generated ++ text "\n") = some bytes) :
    readJson bytes = some (respelled number generated) := by
  have huntranslated := untranslated_dumps hnumber hgenerated
  have hpoints : CodePoints (dumps number 0 generated ++ text "\n") := fun point hpoint =>
    (huntranslated point hpoint).2
  have hclean : Clean (dumps number 0 generated ++ text "\n") := by
    rw [← encodeText_isSome_iff, hbytes]
    rfl
  have hback : ∀ point ∈ dumps number 0 generated ++ text "\n", (Char.ofNat point).toNat = point :=
    fun point hpoint => toNat_ofNat_of_clean (hpoints point hpoint) (hclean point hpoint)
  have hreturn : '\r' ∉ (dumps number 0 generated ++ text "\n").map Char.ofNat := by
    intro hmem
    obtain ⟨point, hpoint, heq⟩ := List.mem_map.mp hmem
    have hvalue := hback point hpoint
    rw [heq] at hvalue
    exact (huntranslated point hpoint).1 hvalue.symm
  rw [readJson, utf8Decode_of_encodeText hpoints hbytes, Option.bind_some,
    universalNewlines_of_notMem hreturn, map_toNat_map_ofNat hpoints hclean,
    pythonLoads_dumps hnumber hgenerated hdistinct]

omit hnumber in
theorem readResponseFile_of_readJson {machine : Machine} {path : Path} {generated : Json Nat}
    {bytes : List Char} (hread : readFile machine path = .ok bytes)
    (hjson : readJson bytes = some generated) :
    readResponseFile machine path = .ok generated := by
  obtain ⟨content, hcontent, hloads⟩ := Option.bind_eq_some_iff.mp hjson
  rw [readResponseFile, hread]
  simp only [hcontent, hloads]

/-- The bytes of `generation.json` are read as the suite they were printed from. -/
theorem readGenerated {machine : Machine} {path : Path} {generated : Json Nat} {bytes : List Char}
    (hgenerated : PythonValue generated) (hdistinct : Distinct generated)
    (hbytes : encodeText (dumps number 0 generated ++ text "\n") = some bytes)
    (hread : readFile machine path = .ok bytes) :
    readResponseFile machine path = .ok (respelled number generated) :=
  readResponseFile_of_readJson hread (readJson_of_encodeText hnumber hgenerated hdistinct hbytes)

end Text

/-! ## The spelling of numbers -/

section Respelled

variable (number : List Char → Name)

theorem dictMembers_respelled (value : Json Nat) :
    dictMembers (respelled number value) = (dictMembers value).map (respelledMembers number) := by
  cases value <;> rfl

theorem stringOf_respelled (value : Json Nat) : stringOf (respelled number value) = stringOf value := by
  cases value <;> rfl

theorem respelledMembers_eq (members : List (Name × Json Nat)) :
    respelledMembers number members =
      members.map fun member => (member.1, respelled number member.2) := by
  induction members with
  | nil => rfl
  | cons member members ih => rw [respelledMembers, ih, List.map_cons]

theorem respelledElements_eq (elements : List (Json Nat)) :
    respelledElements number elements = elements.map (respelled number) := by
  induction elements with
  | nil => rfl
  | cons value elements ih => rw [respelledElements, ih, List.map_cons]

theorem lookup_map_value {β γ : Type} (f : β → γ) (entries : List (Name × β)) (key : Name) :
    (entries.map fun entry => (entry.1, f entry.2)).lookup key = (entries.lookup key).map f := by
  induction entries with
  | nil => rfl
  | cons entry entries ih =>
      rw [List.map_cons, List.lookup_cons, List.lookup_cons, ih]
      cases key == entry.1 with
      | true => rfl
      | false => rfl

theorem getField_respelledMembers (members : List (Name × Json Nat)) (field : Name) :
    getField (respelledMembers number members) field =
      (getField members field).map (respelled number) := by
  rw [getField, getField, respelledMembers_eq, ← List.map_reverse, lookup_map_value]

theorem getString_respelledMembers (members : List (Name × Json Nat)) (field : Name) :
    getString (respelledMembers number members) field = getString members field := by
  rw [getString, getString, getField_respelledMembers]
  cases getField members field with
  | none => rfl
  | some value => exact stringOf_respelled number value

theorem validateEntry_respelled (item : Json Nat) :
    validateEntry (respelled number item) = validateEntry item := by
  rw [validateEntry, validateEntry, dictMembers_respelled]
  cases dictMembers item with
  | none => rfl
  | some members =>
      simp only [Option.map_some, fileEntry, getString_respelledMembers]

theorem validateEntries_respelled (items : List (Json Nat)) :
    validateEntries (respelledElements number items) = validateEntries items := by
  induction items with
  | nil => rfl
  | cons item items ih =>
      rw [respelledElements, validateEntries, validateEntries, validateEntry_respelled, ih]

/-- The elements of an array; `none` is anything else. -/
def listOf : Json Nat → Option (List (Json Nat))
  | .arr elements => some elements
  | _ => none

theorem listOf_respelled (value : Json Nat) :
    listOf (respelled number value) = (listOf value).map (respelledElements number) := by
  cases value <;> rfl

/-- The suite is checked field by field. -/
theorem validateGeneratedSuite_eq (generated : Json Nat) :
    validateGeneratedSuite generated =
      match dictMembers generated with
      | none => .error .notAnObject
      | some members =>
          match stringFields.find? fun field => (getString members field).isNone with
          | some field => .error (.fieldNotString field)
          | none =>
              match (getField members (text "integration_notes")).bind listOf with
              | none => .error .notesNotStrings
              | some notes =>
                  if notes.any fun note => (stringOf note).isNone then .error .notesNotStrings
                  else
                    match (getField members (text "files")).bind listOf with
                    | none => .error .filesNotAList
                    | some files =>
                        if 100 < files.length then .error .filesNotAList
                        else
                          match validateEntries files with
                          | .error failure => .error failure
                          | .ok entries =>
                              if maxGeneratedCharacters <
                                  (entries.map fun entry => entry.content.length).sum then
                                .error .suiteTooLarge
                              else .ok entries := by
  unfold validateGeneratedSuite
  cases dictMembers generated with
  | none => rfl
  | some members =>
      dsimp only
      cases stringFields.find? fun field => (getString members field).isNone with
      | some field => rfl
      | none =>
          dsimp only
          cases getField members (text "integration_notes") with
          | none => rfl
          | some notes =>
              cases notes with
              | arr notes =>
                  simp only [listOf, Option.bind_some]
                  split
                  · rfl
                  · cases getField members (text "files") with
                    | none => rfl
                    | some files => cases files <;> rfl
              | null | bool _ | num _ | str _ | obj _ => rfl

/-- Numbers do not count for what is accepted and for what is written. -/
theorem validateGeneratedSuite_respelled (generated : Json Nat) :
    validateGeneratedSuite (respelled number generated) = validateGeneratedSuite generated := by
  have hlist (members : List (Name × Json Nat)) (field : Name) :
      (getField (respelledMembers number members) field).bind listOf =
        ((getField members field).bind listOf).map (respelledElements number) := by
    rw [getField_respelledMembers]
    cases getField members field with
    | none => rfl
    | some value => exact listOf_respelled number value
  have hnotes (notes : List (Json Nat)) :
      (respelledElements number notes).any (fun note => (stringOf note).isNone) =
        notes.any fun note => (stringOf note).isNone := by
    rw [respelledElements_eq, List.any_map]
    simp only [Function.comp_def, stringOf_respelled]
  have hlength (files : List (Json Nat)) :
      (respelledElements number files).length = files.length := by
    rw [respelledElements_eq, List.length_map]
  rw [validateGeneratedSuite_eq, validateGeneratedSuite_eq, dictMembers_respelled]
  cases dictMembers generated with
  | none => rfl
  | some members =>
      simp only [Option.map_some, getString_respelledMembers, hlist]
      cases (getField members (text "integration_notes")).bind listOf with
      | none => rfl
      | some notes =>
          simp only [Option.map_some, hnotes]
          cases (getField members (text "files")).bind listOf with
          | none => rfl
          | some files =>
              simp only [Option.map_some, hlength, validateEntries_respelled]

mutual

theorem dumps_respelled (hnumber : PrintsNumbers number) (indent : Nat) : (value : Json Nat) →
    dumps number indent (respelled number value) = dumps number indent value
  | .null => rfl
  | .bool _ => rfl
  | .num lexeme => hnumber.stable lexeme
  | .str _ => rfl
  | .arr [] => rfl
  | .obj [] => rfl
  | .arr (first :: rest) => by
      rw [respelled, respelledElements, dumps, dumps, dumps_respelled hnumber (indent + 2) first,
        dumpsElements_respelled hnumber (indent + 2) rest]
  | .obj ((name, value) :: rest) => by
      rw [respelled, respelledMembers, dumps, dumps, dumps_respelled hnumber (indent + 2) value,
        dumpsMembers_respelled hnumber (indent + 2) rest]

theorem dumpsElements_respelled (hnumber : PrintsNumbers number) (indent : Nat) :
    (elements : List (Json Nat)) →
      dumpsElements number indent (respelledElements number elements) =
        dumpsElements number indent elements
  | [] => rfl
  | value :: rest => by
      rw [respelledElements, dumpsElements, dumpsElements, dumps_respelled hnumber indent value,
        dumpsElements_respelled hnumber indent rest]

theorem dumpsMembers_respelled (hnumber : PrintsNumbers number) (indent : Nat) :
    (members : List (Name × Json Nat)) →
      dumpsMembers number indent (respelledMembers number members) = dumpsMembers number indent members
  | [] => rfl
  | (name, value) :: rest => by
      rw [respelledMembers, dumpsMembers, dumpsMembers, dumps_respelled hnumber indent value,
        dumpsMembers_respelled hnumber indent rest]

theorem depth_respelled : (value : Json Nat) → (respelled number value).depth = value.depth
  | .null => rfl
  | .bool _ => rfl
  | .num _ => rfl
  | .str _ => rfl
  | .arr elements => by
      rw [respelled, Json.depth, Json.depth, depthElements_respelled elements]
  | .obj members => by
      rw [respelled, Json.depth, Json.depth, depthMembers_respelled members]

theorem depthElements_respelled : (elements : List (Json Nat)) →
    Json.depthElements (respelledElements number elements) = Json.depthElements elements
  | [] => rfl
  | value :: rest => by
      rw [respelledElements, Json.depthElements, Json.depthElements, depth_respelled value,
        depthElements_respelled rest]

theorem depthMembers_respelled : (members : List (Name × Json Nat)) →
    Json.depthMembers (respelledMembers number members) = Json.depthMembers members
  | [] => rfl
  | (name, value) :: rest => by
      rw [respelledMembers, Json.depthMembers, Json.depthMembers, depth_respelled value,
        depthMembers_respelled rest]

end

end Respelled

/-! ## What a run writes for a suite -/

section Finish

variable (python : Python) (machine : Machine) (options : Options) (draft : Draft)

/-- Spelling the numbers of a suite in another way changes nothing that is written. -/
theorem finish_respelled (hnumber : PrintsNumbers python.number) (outputDir : Path)
    (generated : Json Nat) (requests : List Request) (sleeps : List Nat) :
    finish python machine options outputDir (fileResponse draft (respelled python.number generated))
        requests sleeps =
      finish python machine options outputDir (fileResponse draft generated) requests sleeps := by
  have hmaterialize : materializeSuite python.lower machine.disk outputDir
      (respelled python.number generated) options.force =
        materializeSuite python.lower machine.disk outputDir generated options.force := by
    unfold materializeSuite
    rw [validateGeneratedSuite_respelled]
  have hreports (fs : FileSystem) (outputRoot : Path) :
      writeReports python.toPrinter fs outputRoot
          (fileResponse draft (respelled python.number generated)) =
        writeReports python.toPrinter fs outputRoot (fileResponse draft generated) := by
    unfold writeReports writeReport
    rw [fileResponse, dumps_respelled python.number hnumber, depth_respelled]
    rfl
  have hclosing (written : List Path) (outputRoot : Path) :
      closing written outputRoot (respelled python.number generated) =
        closing written outputRoot generated := by
    unfold closing
    rw [dictMembers_respelled]
    cases dictMembers generated with
    | none => rfl
    | some members => simp only [Option.map_some, Option.bind_some, getString_respelledMembers]
  unfold finish
  simp only [hreports]
  simp only [fileResponse, hmaterialize, hclosing]

end Finish

/-! ## The second run -/

section Saved

variable {python : Python} {fs : FileSystem} {outputRoot : Path} {response : Response} {key : Key}
  {bytes : List Char}

/-- The reports change no links. -/
theorem links_writeReports (printer : Printer) (fs : FileSystem) (outputRoot : Path)
    (response : Response) (other : Key) (target : Path) :
    (writeReports printer fs outputRoot response).1 other = some (.symlink target) ↔
      fs other = some (.symlink target) := by
  unfold writeReports
  have hfirst := (touches_writeReport printer fs (outputRoot ++ [generationName])
    response.generated).link
  cases hwrite : writeReport printer fs (outputRoot ++ [generationName]) response.generated with
  | mk fs₁ result =>
      rw [hwrite] at hfirst
      cases result with
      | error failure => exact hfirst other target
      | ok _ =>
          have hsecond := (touches_writeReport printer fs₁ (outputRoot ++ [metadataName])
            response.metadata).link
          exact (hsecond other target).trans (hfirst other target)

/-- Reports that are written are written one after the other. -/
theorem writeReports_of_ok {printer : Printer}
    (hok : (writeReports printer fs outputRoot response).2 = .ok ()) :
    ∃ fs₁, writeText fs (outputRoot ++ [generationName])
        (dumps printer.number 0 response.generated ++ text "\n") = (fs₁, .ok ()) ∧
      writeReports printer fs outputRoot response =
        writeText fs₁ (outputRoot ++ [metadataName])
          (dumps printer.number 0 response.metadata ++ text "\n") ∧
      ∀ path, leadsTo fs₁ path = leadsTo fs path := by
  unfold writeReports at hok ⊢
  have hlinks := (touches_writeReport printer fs (outputRoot ++ [generationName])
    response.generated).link
  cases hwrite : writeReport printer fs (outputRoot ++ [generationName]) response.generated with
  | mk fs₁ result =>
      rw [hwrite] at hok hlinks
      cases result with
      | error failure => cases hok
      | ok _ =>
          have hfirst := depth_of_writeReport (congrArg Prod.snd hwrite)
          rw [writeReport_of_le hfirst] at hwrite
          exact ⟨fs₁, hwrite, writeReport_of_le (depth_of_writeReport hok), leadsTo_congr hlinks⟩

/-- What is left in `generation.json`, unless the other report leads there too. -/
theorem encodeText_of_writeReports {printer : Printer}
    (hok : (writeReports printer fs outputRoot response).2 = .ok ())
    (hkey : leadsTo fs (outputRoot ++ [generationName]) = some key)
    (hapart : leadsTo fs (outputRoot ++ [metadataName]) ≠ some key)
    (hbytes : (writeReports printer fs outputRoot response).1 key = some (.file bytes)) :
    encodeText (dumps printer.number 0 response.generated ++ text "\n") = some bytes := by
  obtain ⟨fs₁, hwrite, hrest, hlinks⟩ := writeReports_of_ok hok
  have hapart₁ : leadsTo fs₁ (outputRoot ++ [metadataName]) ≠ some key := by
    rwa [hlinks]
  rw [hrest, writeText_other hapart₁] at hbytes
  apply encodeText_of_writeText _ hkey
  · rw [hwrite]
    exact hbytes
  · rw [hwrite]

/-- A run that has written out a suite ends with the reports. -/
theorem exists_writeReports_of_finish {machine : Machine} {options : Options} {outputDir : Path}
    {requests : List Request} {sleeps : List Nat}
    (hok : (finish python machine options outputDir response requests sleeps).result = .ok ()) :
    ∃ fs root, (writeReports python.toPrinter fs root response).2 = .ok () ∧
      (finish python machine options outputDir response requests sleeps).store =
        (writeReports python.toPrinter fs root response).1 ∧
      resolve fs outputDir = some root := by
  unfold finish at hok ⊢
  cases hmaterialize : materializeSuite python.lower machine.disk outputDir response.generated
      options.force with
  | mk fs result =>
      rw [hmaterialize] at hok
      cases result with
      | error failure => cases hok
      | ok written =>
          dsimp only at hok ⊢
          cases hresolve : resolve fs outputDir with
          | none =>
              rw [hresolve] at hok
              cases hok
          | some root =>
              rw [hresolve] at hok
              dsimp only at hok ⊢
              refine ⟨fs, root, ?_⟩
              cases hreports : writeReports python.toPrinter fs root response with
              | mk fs' ending =>
                  rw [hreports] at hok
                  cases ending with
                  | error failure => cases hok
                  | ok _ => exact ⟨rfl, rfl, hresolve⟩

/-- `generation.json` after a run that has written out a suite. -/
theorem encodeText_of_finish {machine : Machine} {options : Options} {outputDir : Path}
    {requests : List Request} {sleeps : List Nat} {store : FileSystem}
    (hok : (finish python machine options outputDir response requests sleeps).result = .ok ())
    (hstore : (finish python machine options outputDir response requests sleeps).store = store)
    (hroot : resolve store outputDir = some outputRoot)
    (hkey : leadsTo store (outputRoot ++ [generationName]) = some key)
    (hapart : leadsTo store (outputRoot ++ [metadataName]) ≠ some key)
    (hbytes : store key = some (.file bytes)) :
    encodeText (dumps python.number 0 response.generated ++ text "\n") = some bytes := by
  obtain ⟨fs, root, hreports, hleft, hresolve⟩ := exists_writeReports_of_finish hok
  rw [hleft] at hstore
  subst hstore
  have hlinks := links_writeReports python.toPrinter fs root response
  rw [resolve, resolveFrom_congr hlinks, ← resolve, hresolve, Option.some.injEq] at hroot
  subst hroot
  rw [leadsTo_congr hlinks] at hkey hapart
  exact encodeText_of_writeReports hreports hkey hapart hbytes

end Saved

/-- A successful run leaves in `generation.json` all that is needed of its suite: whatever
the machine and the options of a second run that takes the file for its response are, it
does what it would do with the suite that the first run had received. -/
theorem replays {python : Python} (hnumber : PrintsNumbers python.number) {machine : Machine}
    {options : Options} (hmode : options.mode.isDryRun = false)
    (hok : (main python machine options).result = .ok ()) {outputDir outputRoot : Path} {key : Key}
    {bytes : List Char} (houtput : options.outputDir = some outputDir)
    (hroot : resolve (main python machine options).store outputDir = some outputRoot)
    (hkey : leadsTo (main python machine options).store (outputRoot ++ [generationName]) = some key)
    (hapart : leadsTo (main python machine options).store (outputRoot ++ [metadataName]) ≠ some key)
    (hbytes : (main python machine options).store key = some (.file bytes)) :
    ∃ response requests sleeps,
      main python machine options =
          finish python machine options outputDir response requests sleeps ∧
        ∀ machine' options' path draft outputDir', options'.mode = .responseFile path →
          options'.outputDir = some outputDir' → prepare python machine' options' = .ok draft →
            readFile machine' path = .ok bytes →
              main python machine' options' = finish python machine' options' outputDir'
                (fileResponse draft response.generated) [] [] := by
  obtain ⟨_, outputDir', response, requests, sleeps, _, houtput', hreceived, hmain⟩ :=
    exists_finish_of_ok hmode hok
  rw [houtput, Option.some.injEq] at houtput'
  subst houtput'
  rw [hmain] at hok
  have hencoded := encodeText_of_finish hok (congrArg Generation.store hmain).symm hroot hkey hapart
    hbytes
  refine ⟨response, requests, sleeps, hmain, ?_⟩
  intro machine' options' path draft outputDir' hmode' houtput' hprepare hread
  have hsuite := readGenerated hnumber hreceived.generated.python hreceived.generated.distinct
    hencoded hread
  unfold main
  rw [hprepare, hmode', houtput']
  dsimp only
  rw [generate, hmode']
  dsimp only
  rw [hsuite]
  exact finish_respelled python machine' options' draft hnumber outputDir' response.generated [] []

/-! ## A suite with escapes and numbers -/

/-- A number is printed as it is spelled. -/
def asSpelled (lexeme : List Char) : Name :=
  match scanScalar (lexeme.map Char.toNat) with
  | some (.num found, []) =>
      if found = lexeme ∧ lexeme.all (fun c => 32 ≤ c.toNat ∧ c.toNat < 127) then
        lexeme.map Char.toNat
      else text "0"
  | _ => text "0"

theorem asSpelled_cases (lexeme : List Char) :
    (asSpelled lexeme = lexeme.map Char.toNat ∧
        scanScalar (lexeme.map Char.toNat) = some (.num lexeme, []) ∧
          ∀ c ∈ lexeme, 32 ≤ c.toNat ∧ c.toNat < 127) ∨ asSpelled lexeme = text "0" := by
  unfold asSpelled
  split
  · rename_i found hscan
    split
    · rename_i hprintable
      obtain ⟨rfl, hrange⟩ := hprintable
      simp only [List.all_eq_true, decide_eq_true_eq] at hrange
      exact Or.inl ⟨rfl, hscan, hrange⟩
    · exact Or.inr rfl
  · exact Or.inr rfl

theorem printsNumbers_asSpelled : PrintsNumbers asSpelled where
  isNumber := by
    intro lexeme
    rcases asSpelled_cases lexeme with ⟨heq, hscan, _⟩ | heq
    · rw [heq, NumberText, hscan, List.map_map]
      simp [Function.comp_def, Char.ofNat_toNat]
    · rw [heq]
      rfl
  printable := by
    intro lexeme point hpoint
    rcases asSpelled_cases lexeme with ⟨heq, _, hrange⟩ | heq
    · rw [heq] at hpoint
      obtain ⟨c, hc, rfl⟩ := List.mem_map.mp hpoint
      exact hrange c hc
    · rw [heq] at hpoint
      rw [List.mem_singleton.mp hpoint]
      decide
  stable := by
    intro lexeme
    rcases asSpelled_cases lexeme with ⟨heq, _, _⟩ | heq
    · have hback : (lexeme.map Char.toNat).map Char.ofNat = lexeme := by
        simp [List.map_map, Function.comp_def, Char.ofNat_toNat]
      rw [heq, hback, heq]
    · rw [heq]
      rfl

/-- The suite: two files with escapes and a character that is not ASCII, and a member with
numbers that no check asks for. -/
def fullSuite : Json Nat :=
  .obj [(text "summary", .str (text "two \"tests\"\n" ++ [0xE9])),
    (text "detected_build_system", .str (text "make")),
    (text "recommended_test_command", .str (text "make test")),
    (text "files", .arr [entryValue ⟨text "t/a.c", text "int a;\n"⟩,
      entryValue ⟨text "b.c", text "\t\\"⟩]),
    (text "integration_notes", .arr [.str (text "copy both")]),
    (text "budget", .arr [.num ['1', '.', '5'], .num ['-', '2'], .null])]

/-- The file that it comes from. -/
def fullSuiteBytes : List Char := (encodeText (dumps asSpelled 0 fullSuite ++ text "\n")).getD []

def replayPython : Python :=
  ⟨{ plainPrinter with number := asSpelled }, asciiLower, fun _ => none⟩

def replayMachine : Machine where
  project := some secretProject
  disk :=
    { objects := [([['s']], .file fullSuiteBytes)]
      inDirectory := by
        intro object hobject
        rw [List.mem_singleton.mp hobject]
        exact ⟨List.cons_ne_nil _ _, rfl⟩
      linksPlain := by
        intro object hobject target htarget
        rw [List.mem_singleton.mp hobject] at htarget
        cases htarget }
  special := fun _ => none
  apiKey := none
  outcomes := fun _ => .urlError []

def replayOptions : Options where
  outputDir := some generatedDirectory
  model := text "m"
  apiBase := []
  testCount := 12
  existingTestCommand := []
  coverageReport := none
  extraInstructions := []
  limits := Limits.default
  maxOutputTokens := 24000
  reasoningEffort := text "medium"
  retries := 2
  mode := .responseFile [text "s"]
  force := false

/-- What is reported of the project. -/
def replayManifest : Json Nat :=
  manifest replayOptions secretProject [selectedFile asciiLower deployParts ['x'] 1]

theorem exists_prepare_replayMachine : ∃ prompt,
    prepare replayPython replayMachine replayOptions = .ok ⟨prompt, replayManifest⟩ := by
  have hselected : selectProjectFiles replayPython.lower secretProject (some generatedDirectory)
      replayOptions.limits = [selectedFile asciiLower deployParts ['x'] 1] :=
    selectProjectFiles_secretProject
  have hseparate : some generatedDirectory ≠ some secretProject.root := by decide
  refine ⟨_, (prepare_eq_ok_iff _ _ _).mpr ⟨secretProject, some generatedDirectory, _, _, rfl, ?_, rfl,
    hseparate, hselected, List.cons_ne_nil _ _, rfl, rfl⟩⟩
  exact fun _ => nofun

theorem readResponseFile_replayMachine :
    readResponseFile replayMachine [text "s"] = .ok (respelled asSpelled fullSuite) := by
  have hpython : PythonValue fullSuite := by
    simp only [fullSuite, entryValue, Holds, HoldsMembers, HoldsElements, CodePoints, and_true]
    decide
  have hdistinct : Distinct fullSuite := by
    simp only [fullSuite, entryValue, Distinct, DistinctMembers, DistinctElements, and_true]
    decide
  have hbytes : encodeText (dumps asSpelled 0 fullSuite ++ text "\n") = some fullSuiteBytes := by
    decide +kernel
  exact readGenerated printsNumbers_asSpelled hpython hdistinct hbytes rfl

/-- The run of the machine, as a run without a prompt. -/
def replayRun : Generation :=
  finish replayPython replayMachine replayOptions generatedDirectory
    (fileResponse ⟨[], replayManifest⟩ (respelled asSpelled fullSuite)) [] []

theorem main_replayMachine : main replayPython replayMachine replayOptions = replayRun := by
  obtain ⟨prompt, hprepare⟩ := exists_prepare_replayMachine
  have hmode : replayOptions.mode = .responseFile [text "s"] := rfl
  have houtput : replayOptions.outputDir = some generatedDirectory := rfl
  unfold main
  rw [hprepare, hmode, houtput]
  dsimp only
  rw [generate, hmode]
  dsimp only
  rw [readResponseFile_replayMachine]
  rfl

theorem replays_fullSuite : ∃ response requests sleeps,
    main replayPython replayMachine replayOptions =
        finish replayPython replayMachine replayOptions generatedDirectory response requests sleeps ∧
      ∀ machine' options' path draft outputDir', options'.mode = .responseFile path →
        options'.outputDir = some outputDir' → prepare replayPython machine' options' = .ok draft →
          readFile machine' path = .ok fullSuiteBytes →
            main replayPython machine' options' = finish replayPython machine' options' outputDir'
              (fileResponse draft response.generated) [] [] := by
  have hok : (main replayPython replayMachine replayOptions).result = .ok () := by
    rw [main_replayMachine]
    decide +kernel
  have hroot : resolve (main replayPython replayMachine replayOptions).store generatedDirectory =
      some generatedDirectory := by
    rw [main_replayMachine]
    decide +kernel
  obtain ⟨key, hkey⟩ : ∃ key, leadsTo (main replayPython replayMachine replayOptions).store
      (generatedDirectory ++ [generationName]) = some key := by
    rw [main_replayMachine]
    exact Option.isSome_iff_exists.mp (by decide +kernel)
  have hapart : leadsTo (main replayPython replayMachine replayOptions).store
      (generatedDirectory ++ [metadataName]) ≠ some key := by
    rw [← hkey, main_replayMachine]
    decide +kernel
  have hbytes : (main replayPython replayMachine replayOptions).store key =
      some (.file fullSuiteBytes) := by
    have hfound : (leadsTo replayRun.store (generatedDirectory ++ [generationName])).bind
        replayRun.store = some (.file fullSuiteBytes) := by
      decide +kernel
    rw [main_replayMachine] at hkey ⊢
    rwa [hkey] at hfound
  exact replays printsNumbers_asSpelled rfl hok rfl hroot hkey hapart hbytes

end Icflow.Generate
