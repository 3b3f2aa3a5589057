import Icflow.Foundation.Json.Schema
import Icflow.Generate.Main
import Icflow.Generate.Replay

set_option autoImplicit false

/-!
# Replies that follow the schema

A request asks for a value that follows `RESPONSE_SCHEMA`, and `validate_generated_suite`
checks what comes back.  The two agree, but for members that the schema does not name, which
the check lets pass, and for the limits on sizes, which the schema does not state.
-/

namespace Icflow.Generate

open Icflow.Foundation

/-! ## What is read from a suite -/

/-- What is read from an element of `files`. -/
def readEntry (item : Json Nat) : Option FileEntry := (dictMembers item).bind fileEntry

/-- The elements of `files`. -/
def suiteFiles (generated : Json Nat) : List (Json Nat) :=
  ((dictMembers generated).bind fun members =>
    (getField members (text "files")).bind listOf).getD []

/-- The entries of a suite, whatever their sizes. -/
def suiteEntries (generated : Json Nat) : List FileEntry :=
  (suiteFiles generated).filterMap readEntry

/-- The limits on a single file. -/
def FileEntry.Small (entry : FileEntry) : Prop :=
  entry.path.length ≤ 240 ∧ entry.content.length ≤ 200000

/-- The limits on a suite. -/
structure WithinLimits (entries : List FileEntry) : Prop where
  count : entries.length ≤ 100
  each : ∀ entry ∈ entries, entry.Small
  total : (entries.map fun entry => entry.content.length).sum ≤ maxGeneratedCharacters

/-- A message about one of the limits. -/
def Failure.ofLimit : Failure → Bool
  | .filesNotAList | .pathTooLong | .fileTooLarge _ | .suiteTooLarge => true
  | _ => false

/-- The fields of a suite have the types that are checked. -/
structure Typed (members : List (Name × Json Nat)) (notes files : List (Json Nat))
    (entries : List FileEntry) : Prop where
  strings : ∀ field ∈ stringFields, (getString members field).isSome = true
  notesMember : getField members (text "integration_notes") = some (.arr notes)
  eachNote : ∀ note ∈ notes, (stringOf note).isSome = true
  filesMember : getField members (text "files") = some (.arr files)
  eachFile : List.Forall₂ (fun item entry => readEntry item = some entry) files entries

theorem validateEntry_of_readEntry {item : Json Nat} {entry : FileEntry}
    (h : readEntry item = some entry) :
    validateEntry item =
      if 240 < entry.path.length then .error .pathTooLong
      else if 200000 < entry.content.length then .error (.fileTooLarge entry.path)
      else .ok entry := by
  obtain ⟨members, hmembers, hentry⟩ := Option.bind_eq_some_iff.mp h
  rw [validateEntry, hmembers]
  dsimp only
  rw [hentry]

theorem validateEntry_eq_ok_iff {item : Json Nat} {entry : FileEntry} :
    validateEntry item = .ok entry ↔ readEntry item = some entry ∧ entry.Small := by
  cases hread : readEntry item with
  | some found =>
      rw [validateEntry_of_readEntry hread, Option.some.injEq, FileEntry.Small]
      constructor
      · intro h
        split at h
        · cases h
        · split at h
          · cases h
          · obtain rfl := Except.ok.inj h
            exact ⟨rfl, by omega, by omega⟩
      · rintro ⟨rfl, hpath, hcontent⟩
        rw [if_neg (Nat.not_lt.mpr hpath), if_neg (Nat.not_lt.mpr hcontent)]
  | none =>
      constructor
      · intro h
        rw [validateEntry] at h
        cases hmembers : dictMembers item with
        | none =>
            rw [hmembers] at h
            cases h
        | some members =>
            have hnone : fileEntry members = none := by
              rwa [readEntry, hmembers, Option.bind_some] at hread
            rw [hmembers] at h
            dsimp only at h
            rw [hnone] at h
            cases h
      · rintro ⟨hsome, _⟩
        cases hsome

theorem validateEntries_of_small {items : List (Json Nat)} {entries : List FileEntry}
    (hread : List.Forall₂ (fun item entry => readEntry item = some entry) items entries)
    (hsmall : ∀ entry ∈ entries, entry.Small) : validateEntries items = .ok entries := by
  induction hread with
  | nil => rfl
  | cons hitem _ ih =>
      obtain ⟨hentry, hrest⟩ := List.forall_mem_cons.mp hsmall
      rw [validateEntries, validateEntry_eq_ok_iff.mpr ⟨hitem, hentry⟩]
      dsimp only
      rw [ih hrest]

/-- The first entry over a limit ends the loop. -/
theorem validateEntries_of_not_small {items : List (Json Nat)} {entries : List FileEntry}
    (hread : List.Forall₂ (fun item entry => readEntry item = some entry) items entries)
    (hlarge : ¬ ∀ entry ∈ entries, entry.Small) :
    ∃ failure, validateEntries items = .error failure ∧ failure.ofLimit = true := by
  induction hread with
  | nil => exact absurd (List.forall_mem_nil _) hlarge
  | @cons item entry items entries hitem _ ih =>
      rw [validateEntries]
      cases hvalid : validateEntry item with
      | error failure =>
          refine ⟨failure, rfl, ?_⟩
          rw [validateEntry_of_readEntry hitem] at hvalid
          split at hvalid
          · obtain rfl := Except.error.inj hvalid
            rfl
          · split at hvalid
            · obtain rfl := Except.error.inj hvalid
              rfl
            · cases hvalid
      | ok found =>
          obtain ⟨hfound, hsmall⟩ := validateEntry_eq_ok_iff.mp hvalid
          rw [hitem] at hfound
          obtain rfl := Option.some.inj hfound
          obtain ⟨failure, hfailure, hlimit⟩ := ih fun hrest =>
            hlarge (List.forall_mem_cons.mpr ⟨hsmall, hrest⟩)
          refine ⟨failure, ?_, hlimit⟩
          dsimp only
          rw [hfailure]

namespace Typed

variable {members : List (Name × Json Nat)} {notes files : List (Json Nat)}
  {entries : List FileEntry}

theorem suiteFiles (h : Typed members notes files entries) :
    Generate.suiteFiles (.obj members) = files := by
  rw [Generate.suiteFiles, dictMembers, Option.bind_some, h.filesMember]
  rfl

theorem suiteEntries (h : Typed members notes files entries) :
    Generate.suiteEntries (.obj members) = entries := by
  have hread := h.eachFile
  rw [Generate.suiteEntries, h.suiteFiles]
  clear h
  induction hread with
  | nil => rfl
  | cons hitem _ ih => rw [List.filterMap_cons_some hitem, ih]

theorem find?_stringFields (h : Typed members notes files entries) :
    (stringFields.find? fun field => (getString members field).isNone) = none := by
  rw [List.find?_eq_none]
  intro field hfield hnone
  have hsome := h.strings field hfield
  rw [Option.isNone_iff_eq_none.mp hnone] at hsome
  cases hsome

theorem not_any_note (h : Typed members notes files entries) :
    ¬ (notes.any fun note => (stringOf note).isNone) = true := by
  rw [List.any_eq_true]
  rintro ⟨note, hnote, hnone⟩
  have hsome := h.eachNote note hnote
  rw [Option.isNone_iff_eq_none.mp hnone] at hsome
  cases hsome

theorem validate_eq_ok (h : Typed members notes files entries) (hlimits : WithinLimits entries) :
    validateGeneratedSuite (.obj members) = .ok entries := by
  have hcount : ¬ 100 < files.length := by
    rw [h.eachFile.length_eq]
    exact Nat.not_lt.mpr hlimits.count
  rw [validateGeneratedSuite_eq, dictMembers]
  dsimp only
  rw [h.find?_stringFields, h.notesMember, h.filesMember]
  dsimp only [Option.bind_some, listOf]
  rw [if_neg h.not_any_note, if_neg hcount, validateEntries_of_small h.eachFile hlimits.each]
  dsimp only
  rw [if_neg (Nat.not_lt.mpr hlimits.total)]

/-- Only the sizes are left to refuse. -/
theorem validate_eq_error (h : Typed members notes files entries)
    (hlimits : ¬ WithinLimits entries) :
    ∃ failure, validateGeneratedSuite (.obj members) = .error failure ∧
      failure.ofLimit = true := by
  rw [validateGeneratedSuite_eq, dictMembers]
  dsimp only
  rw [h.find?_stringFields, h.notesMember, h.filesMember]
  dsimp only [Option.bind_some, listOf]
  rw [if_neg h.not_any_note]
  by_cases hcount : 100 < files.length
  · rw [if_pos hcount]
    exact ⟨_, rfl, rfl⟩
  · rw [if_neg hcount]
    by_cases heach : ∀ entry ∈ entries, entry.Small
    · rw [validateEntries_of_small h.eachFile heach]
      have htotal : maxGeneratedCharacters <
          (entries.map fun entry => entry.content.length).sum := by
        refine Nat.lt_of_not_le fun htotal => hlimits ⟨?_, heach, htotal⟩
        rw [← h.eachFile.length_eq]
        exact Nat.not_lt.mp hcount
      dsimp only
      rw [if_pos htotal]
      exact ⟨_, rfl, rfl⟩
    · obtain ⟨failure, hfailure, hlimit⟩ := validateEntries_of_not_small h.eachFile heach
      rw [hfailure]
      exact ⟨failure, rfl, hlimit⟩

end Typed

theorem eq_arr_of_bind_listOf {found : Option (Json Nat)} {elements : List (Json Nat)}
    (h : found.bind listOf = some elements) : found = some (.arr elements) := by
  obtain ⟨value, rfl, hlist⟩ := Option.bind_eq_some_iff.mp h
  cases value with
  | arr values => rw [Option.some.inj hlist]
  | null | bool _ | num _ | str _ | obj _ => cases hlist

theorem small_of_validateEntries {items : List (Json Nat)} {entries : List FileEntry}
    (h : List.Forall₂ (fun item entry => validateEntry item = .ok entry) items entries) :
    ∀ entry ∈ entries, entry.Small := by
  induction h with
  | nil => exact List.forall_mem_nil _
  | cons hitem _ ih =>
      exact List.forall_mem_cons.mpr ⟨(validateEntry_eq_ok_iff.mp hitem).2, ih⟩

/-- What is accepted has the types, and is within the limits. -/
theorem typed_of_validate {generated : Json Nat} {entries : List FileEntry}
    (h : validateGeneratedSuite generated = .ok entries) :
    ∃ members notes files, generated = .obj members ∧ Typed members notes files entries ∧
      WithinLimits entries := by
  rw [validateGeneratedSuite_eq] at h
  cases generated with
  | null | bool _ | num _ | str _ | arr _ => cases h
  | obj members =>
      dsimp only [dictMembers] at h
      cases hstrings : stringFields.find? fun field => (getString members field).isNone with
      | some field =>
          rw [hstrings] at h
          cases h
      | none =>
          rw [hstrings] at h
          cases hnotes : (getField members (text "integration_notes")).bind listOf with
          | none =>
              rw [hnotes] at h
              cases h
          | some notes =>
              simp only [hnotes] at h
              split at h
              · cases h
              · rename_i hnoteStrings
                cases hfiles : (getField members (text "files")).bind listOf with
                | none =>
                    rw [hfiles] at h
                    cases h
                | some files =>
                    simp only [hfiles] at h
                    split at h
                    · cases h
                    · rename_i hcount
                      cases hentries : validateEntries files with
                      | error failure =>
                          rw [hentries] at h
                          cases h
                      | ok found =>
                          simp only [hentries] at h
                          split at h
                          · cases h
                          · rename_i htotal
                            obtain rfl := Except.ok.inj h
                            have hread := validateEntries_eq_ok hentries
                            have htyped := hread.imp fun _ _ h =>
                              (validateEntry_eq_ok_iff.mp h).1
                            refine ⟨members, notes, files, rfl,
                              ⟨?_, eq_arr_of_bind_listOf hnotes, ?_, eq_arr_of_bind_listOf hfiles,
                                htyped⟩, ⟨?_, small_of_validateEntries hread, ?_⟩⟩
                            · intro field hfield
                              have hthere := List.find?_eq_none.mp hstrings field hfield
                              exact Option.isSome_iff_ne_none.mpr fun hnone =>
                                hthere (Option.isNone_iff_eq_none.mpr hnone)
                            · intro note hnote
                              refine Option.isSome_iff_ne_none.mpr fun hnone => hnoteStrings ?_
                              exact List.any_eq_true.mpr
                                ⟨note, hnote, Option.isNone_iff_eq_none.mpr hnone⟩
                            · rw [← hread.length_eq]
                              exact Nat.not_lt.mp hcount
                            · exact Nat.not_lt.mp htotal

/-! ## What the schema says -/

/-- An object has no members but these. -/
def OnlyMembers (properties : List (Name × Json Nat)) (value : Json Nat) : Prop :=
  ∀ members, dictMembers value = some members →
    ∀ found ∈ members, found.1 ∈ properties.map Prod.fst

/-- The suite and its entries have no members that the schema does not name. -/
def Closed (generated : Json Nat) : Prop :=
  OnlyMembers suiteProperties generated ∧
    ∀ item ∈ suiteFiles generated, OnlyMembers entryProperties item

theorem text_injective : Function.Injective text := by
  intro first second h
  have hchars : Function.Injective Char.toNat := fun _ _ h => Char.toNat_inj.mp h
  exact String.toList_inj.mp (List.map_injective_iff.mpr hchars h)

theorem follows_stringSchema_iff {value : Json Nat} :
    Json.Follows text stringSchema value ↔ (stringOf value).isSome = true := by
  have hfollows : Json.Follows text stringSchema value ↔ ∃ content, value = .str content :=
    Json.follows_stringSchema_iff text_injective
  rw [hfollows]
  cases value with
  | str content => exact ⟨fun _ => rfl, fun _ => ⟨content, rfl⟩⟩
  | null | bool _ | num _ | arr _ | obj _ => simp [stringOf]

theorem isSome_getString_iff {members : List (Name × Json Nat)} {field : Name} :
    (getString members field).isSome = true ↔
      ∃ found, Json.member members field = some found ∧ Json.Follows text stringSchema found := by
  simp only [follows_stringSchema_iff]
  rw [getString, Option.isSome_bind, Option.any_eq_true]
  rfl

theorem exists_readEntry_iff {members : List (Name × Json Nat)} :
    (∃ entry, readEntry (.obj members) = some entry) ↔
      ∀ property ∈ entryProperties, (getString members property.1).isSome = true := by
  have hread : readEntry (.obj members) = fileEntry members := rfl
  rw [hread, fileEntry, entryProperties, List.forall_mem_cons, List.forall_mem_cons,
    List.forall_mem_singleton]
  constructor
  · rintro ⟨entry, hentry⟩
    split at hentry
    · rename_i path purpose content hpath hpurpose hcontent
      rw [hpath, hpurpose, hcontent]
      exact ⟨rfl, rfl, rfl⟩
    · cases hentry
  · rintro ⟨hpath, hpurpose, hcontent⟩
    obtain ⟨path, hpath⟩ := Option.isSome_iff_exists.mp hpath
    obtain ⟨purpose, hpurpose⟩ := Option.isSome_iff_exists.mp hpurpose
    obtain ⟨content, hcontent⟩ := Option.isSome_iff_exists.mp hcontent
    rw [hpath, hpurpose, hcontent]
    exact ⟨_, rfl⟩

theorem follows_entry_iff {item : Json Nat} :
    Json.Follows text (objectSchema entryProperties) item ↔
      (∃ entry, readEntry item = some entry) ∧ OnlyMembers entryProperties item := by
  have hschemas : ∀ property ∈ entryProperties, property.2 = stringSchema := by
    simp [entryProperties]
  have hnodup : (entryProperties.map Prod.fst).Nodup := by decide
  rw [show objectSchema entryProperties = Json.closedSchema text entryProperties from rfl,
    Json.follows_closedSchema_iff text_injective hnodup]
  constructor
  · rintro ⟨members, rfl, hhas, honly⟩
    refine ⟨exists_readEntry_iff.mpr ?_, ?_⟩
    · intro property hproperty
      rw [isSome_getString_iff, ← hschemas property hproperty]
      exact hhas property hproperty
    · intro members' hmembers
      obtain rfl := Option.some.inj hmembers
      exact honly
  · rintro ⟨⟨entry, hentry⟩, honly⟩
    obtain ⟨members, hmembers, _⟩ := Option.bind_eq_some_iff.mp hentry
    cases item with
    | obj found =>
        refine ⟨found, rfl, ?_, honly found rfl⟩
        intro property hproperty
        rw [hschemas property hproperty, ← isSome_getString_iff]
        exact exists_readEntry_iff.mp ⟨entry, hentry⟩ property hproperty
    | null | bool _ | num _ | str _ | arr _ => cases hmembers

theorem exists_entries {items : List (Json Nat)}
    (h : ∀ item ∈ items, ∃ entry, readEntry item = some entry) :
    ∃ entries, List.Forall₂ (fun item entry => readEntry item = some entry) items entries := by
  induction items with
  | nil => exact ⟨[], .nil⟩
  | cons item items ih =>
      obtain ⟨⟨entry, hentry⟩, hrest⟩ := List.forall_mem_cons.mp h
      obtain ⟨entries, hentries⟩ := ih hrest
      exact ⟨entry :: entries, .cons hentry hentries⟩

theorem exists_of_entries {items : List (Json Nat)} {entries : List FileEntry}
    (h : List.Forall₂ (fun item entry => readEntry item = some entry) items entries) :
    ∀ item ∈ items, ∃ entry, readEntry item = some entry := by
  induction h with
  | nil => exact List.forall_mem_nil _
  | cons hitem _ ih => exact List.forall_mem_cons.mpr ⟨⟨_, hitem⟩, ih⟩

/-- The schema asks for the types that are checked, and for no other members. -/
theorem follows_responseSchema_iff {generated : Json Nat} :
    Json.Follows text responseSchema generated ↔
      (∃ members notes files entries, generated = .obj members ∧
        Typed members notes files entries) ∧ Closed generated := by
  have hnodup : (suiteProperties.map Prod.fst).Nodup := by decide
  have hnotes : ∀ {value}, Json.Follows text (arraySchema stringSchema) value ↔
      ∃ notes, value = .arr notes ∧ ∀ note ∈ notes, Json.Follows text stringSchema note :=
    Json.follows_arraySchema_iff text_injective
  have hfiles : ∀ {value}, Json.Follows text (arraySchema (objectSchema entryProperties)) value ↔
      ∃ files, value = .arr files ∧
        ∀ item ∈ files, Json.Follows text (objectSchema entryProperties) item :=
    Json.follows_arraySchema_iff text_injective
  rw [show responseSchema = Json.closedSchema text suiteProperties from rfl,
    Json.follows_closedSchema_iff text_injective hnodup]
  constructor
  · rintro ⟨members, rfl, hhas, honly⟩
    simp only [suiteProperties, List.forall_mem_cons] at hhas
    obtain ⟨hsummary, hsystem, hcommand, ⟨_, hfilesMember, hfilesFollow⟩,
      ⟨_, hnotesMember, hnotesFollow⟩, _⟩ := hhas
    obtain ⟨files, rfl, hitems⟩ := hfiles.mp hfilesFollow
    obtain ⟨notes, rfl, heachNote⟩ := hnotes.mp hnotesFollow
    obtain ⟨entries, hentries⟩ := exists_entries fun item hitem =>
      (follows_entry_iff.mp (hitems item hitem)).1
    have htyped : Typed members notes files entries := by
      refine ⟨?_, hnotesMember, ?_, hfilesMember, hentries⟩
      · rw [stringFields, List.forall_mem_cons, List.forall_mem_cons, List.forall_mem_singleton]
        exact ⟨isSome_getString_iff.mpr hsummary, isSome_getString_iff.mpr hsystem,
          isSome_getString_iff.mpr hcommand⟩
      · exact fun note hnote => follows_stringSchema_iff.mp (heachNote note hnote)
    refine ⟨⟨members, notes, files, entries, rfl, htyped⟩, ?_, ?_⟩
    · intro members' hmembers
      obtain rfl := Option.some.inj hmembers
      exact honly
    · rw [htyped.suiteFiles]
      exact fun item hitem => (follows_entry_iff.mp (hitems item hitem)).2
  · rintro ⟨⟨members, notes, files, entries, rfl, htyped⟩, hsuite, hentry⟩
    rw [htyped.suiteFiles] at hentry
    have hstrings := htyped.strings
    rw [stringFields, List.forall_mem_cons, List.forall_mem_cons,
      List.forall_mem_singleton] at hstrings
    obtain ⟨hsummary, hsystem, hcommand⟩ := hstrings
    refine ⟨members, rfl, ?_, hsuite members rfl⟩
    simp only [suiteProperties, List.forall_mem_cons]
    refine ⟨isSome_getString_iff.mp hsummary, isSome_getString_iff.mp hsystem,
      isSome_getString_iff.mp hcommand, ⟨_, htyped.filesMember, hfiles.mpr ⟨files, rfl, ?_⟩⟩,
      ⟨_, htyped.notesMember, hnotes.mpr ⟨notes, rfl, ?_⟩⟩, List.forall_mem_nil _⟩
    · intro item hitem
      exact follows_entry_iff.mpr ⟨exists_of_entries htyped.eachFile item hitem, hentry item hitem⟩
    · exact fun note hnote => follows_stringSchema_iff.mpr (htyped.eachNote note hnote)

/-- What is accepted, and has no other members, is what follows the schema within the limits;
a reply that follows the schema is refused for a limit only. -/
theorem validated_iff_follows (generated : Json Nat) :
    ((∃ entries, validateGeneratedSuite generated = .ok entries) ∧ Closed generated ↔
      Json.Follows text responseSchema generated ∧ WithinLimits (suiteEntries generated)) ∧
    (Json.Follows text responseSchema generated →
      ∀ failure, validateGeneratedSuite generated = .error failure → failure.ofLimit = true) := by
  refine ⟨⟨?_, ?_⟩, ?_⟩
  · rintro ⟨⟨entries, hvalid⟩, hclosed⟩
    obtain ⟨members, notes, files, rfl, htyped, hlimits⟩ := typed_of_validate hvalid
    rw [htyped.suiteEntries]
    exact ⟨follows_responseSchema_iff.mpr ⟨⟨members, notes, files, entries, rfl, htyped⟩, hclosed⟩,
      hlimits⟩
  · rintro ⟨hfollows, hlimits⟩
    obtain ⟨⟨members, notes, files, entries, rfl, htyped⟩, hclosed⟩ :=
      follows_responseSchema_iff.mp hfollows
    rw [htyped.suiteEntries] at hlimits
    exact ⟨⟨entries, htyped.validate_eq_ok hlimits⟩, hclosed⟩
  · intro hfollows failure hfailure
    obtain ⟨⟨members, notes, files, entries, rfl, htyped⟩, _⟩ :=
      follows_responseSchema_iff.mp hfollows
    have hlimits : ¬ WithinLimits entries := by
      intro hlimits
      rw [htyped.validate_eq_ok hlimits] at hfailure
      cases hfailure
    obtain ⟨found, hfound, hlimit⟩ := htyped.validate_eq_error hlimits
    rw [hfound] at hfailure
    rw [← Except.error.inj hfailure]
    exact hlimit

end Icflow.Generate
