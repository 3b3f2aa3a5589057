import Icflow.Foundation.Json.Syntax
import Icflow.Generate.FileSystem
import Mathlib.Algebra.GroupWithZero.Nat

set_option autoImplicit false

/-!
# Writing a generated suite

`materialize_suite` checks the suite, the output directory and the paths of the files,
and then writes the files one after the other.
-/

namespace Icflow.Generate

open Icflow.Foundation

/-- What writing the results can raise, with what its message names. -/
inductive Failure where
  /-- `Generated suite must be a JSON object` -/
  | notAnObject
  /-- `Generated suite field … must be a string` -/
  | fieldNotString (field : Name)
  /-- `Generated suite integration_notes must be a list of strings` -/
  | notesNotStrings
  /-- `Generated suite files must be a list of at most 100 entries` -/
  | filesNotAList
  /-- `Each generated file entry must be an object` -/
  | entryNotAnObject
  /-- `Each generated file requires string path, purpose, and content fields` -/
  | entryFieldsNotStrings
  /-- `Generated file path exceeds 240 characters` -/
  | pathTooLong
  /-- `Generated file is too large: …` -/
  | fileTooLarge (path : Name)
  /-- `Generated suite exceeds the local output-size limit` -/
  | suiteTooLarge
  /-- `--output-dir must be separate from the input project root` -/
  | notSeparate
  /-- `No eligible text source or build files were found in the project.` -/
  | noEligibleFiles
  /-- `Output directory is not empty: …` -/
  | outputNotEmpty (resolved : Path)
  /-- `Generated path must use forward slashes: …` -/
  | backslash (name : Name)
  /-- `Unsafe generated path: …` -/
  | unsafePath (name : Name)
  /-- `Generated path uses a reserved metadata name: …` -/
  | reservedName (name : Name)
  /-- `Generated path escapes the output directory: …` -/
  | escapes (name : Name)
  /-- `Generated suite contains duplicate file paths` -/
  | duplicatePaths
  /-- `Refusing to overwrite generated file: …` -/
  | refuseOverwrite (target : Path)
  /-- the `ValueError` of a system call on a name it cannot encode -/
  | unencodablePath
  /-- the `RecursionError` of `json.dumps` -/
  | nestedTooDeep
  /-- an `OSError`, or the `UnicodeEncodeError` of a text -/
  | write (fault : Store.WriteFault)
  deriving DecidableEq

/-! ## `validate_generated_suite` -/

/-- The members of a dictionary; `none` is anything else. -/
def dictMembers : Json Nat → Option (List (Name × Json Nat))
  | .obj members => some members
  | _ => none

/-- `dict.get`; of equal names the last counts. -/
def getField (members : List (Name × Json Nat)) (field : Name) : Option (Json Nat) :=
  members.reverse.lookup field

/-- `isinstance(…, str)` -/
def stringOf : Json Nat → Option Name
  | .str value => some value
  | _ => none

/-- A field that holds a string. -/
def getString (members : List (Name × Json Nat)) (field : Name) : Option Name :=
  (getField members field).bind stringOf

/-- The fields that must be strings. -/
def stringFields : List Name :=
  [text "summary", text "detected_build_system", text "recommended_test_command"]

/-- What is used of a file entry. -/
structure FileEntry where
  path : Name
  content : Name
  deriving DecidableEq

/-- The fields of a file entry, when all three are strings. -/
def fileEntry (members : List (Name × Json Nat)) : Option FileEntry :=
  match getString members (text "path"), getString members (text "purpose"),
      getString members (text "content") with
  | some path, some _, some content => some ⟨path, content⟩
  | _, _, _ => none

/-- The body of the loop over the entries. -/
def validateEntry (item : Json Nat) : Except Failure FileEntry :=
  match dictMembers item with
  | none => .error .entryNotAnObject
  | some members =>
      match fileEntry members with
      | none => .error .entryFieldsNotStrings
      | some entry =>
          if 240 < entry.path.length then .error .pathTooLong
          else if 200000 < entry.content.length then .error (.fileTooLarge entry.path)
          else .ok entry

/-- The loop over the entries. -/
def validateEntries : List (Json Nat) → Except Failure (List FileEntry)
  | [] => .ok []
  | item :: rest =>
      match validateEntry item with
      | .error failure => .error failure
      | .ok entry =>
          match validateEntries rest with
          | .error failure => .error failure
          | .ok entries => .ok (entry :: entries)

/-- `MAX_GENERATED_CHARACTERS` -/
def maxGeneratedCharacters : Nat := 5000000

/-- `validate_generated_suite`, with the entries that `materialize_suite` reads from the
suite afterwards. -/
def validateGeneratedSuite (generated : Json Nat) : Except Failure (List FileEntry) :=
  match dictMembers generated with
  | none => .error .notAnObject
  | some members =>
      match stringFields.find? fun field => (getString members field).isNone with
      | some field => .error (.fieldNotString field)
      | none =>
          match getField members (text "integration_notes") with
          | some (.arr notes) =>
              if notes.any fun note => (stringOf note).isNone then .error .notesNotStrings
              else
                match getField members (text "files") with
                | some (.arr files) =>
                    if 100 < files.length then .error .filesNotAList
                    else
                      match validateEntries files with
                      | .error failure => .error failure
                      | .ok entries =>
                          if maxGeneratedCharacters <
                              (entries.map fun entry => entry.content.length).sum then
                            .error .suiteTooLarge
                          else .ok entries
                | _ => .error .filesNotAList
          | _ => .error .notesNotStrings

/-! ## `safe_generated_path` -/

/-- `RESERVED_OUTPUT_NAMES` -/
def reservedOutputNames : List Name := [text "generation.json", text "generation_metadata.json"]

/-- The backslash. -/
def backslash : Nat := 92

/-- `PurePosixPath(name).parts`, for a path that is not absolute -/
def purePosixParts (name : Name) : Path :=
  (name.splitOn slash).filter fun part => part ≠ [] ∧ part ≠ text "."

/-- `safe_generated_path` -/
def safeGeneratedPath (lower : Name → Name) (fs : FileSystem) (outputRoot : Path)
    (relativeName : Name) : Except Failure Path :=
  if relativeName.contains backslash then .error (.backslash relativeName)
  else
    let parts := purePosixParts relativeName
    if relativeName.head? == some slash || parts.isEmpty ||
        parts.any [text "", text ".", text ".."].contains then
      .error (.unsafePath relativeName)
    else if reservedOutputNames.contains (lower (asPosix parts)) then
      .error (.reservedName relativeName)
    else
      match resolve fs (outputRoot ++ parts), resolve fs outputRoot with
      | some target, some resolvedRoot =>
          if resolvedRoot <+: target then .ok target else .error (.escapes relativeName)
      | _, _ => .error .unencodablePath

/-! ## `prepare_output_directory` -/

/-- `prepare_output_directory`: the file system with the output directory, and its
resolved path. -/
def prepareOutputDirectory (disk : Disk) (outputDir : Path) (force : Bool) :
    Except Failure (FileSystem × Path) :=
  match resolve disk.store outputDir with
  | none => .error .unencodablePath
  | some resolved =>
      match encodePath resolved with
      | none => .error .unencodablePath
      | some key =>
          if disk.store key = some .directory ∧ disk.hasEntries key = true ∧ force = false then
            .error (.outputNotEmpty resolved)
          else
            -- `iterdir` and `mkdir` both fail on anything that is not a directory
            match Store.mkdir disk.store key with
            | none => .error (.write .osError)
            | some fs => .ok (fs, resolved)

/-! ## `materialize_suite` -/

/-- `Path.exists()` of a resolved path -/
def pathExists (fs : FileSystem) (path : Path) : Bool :=
  match (encodePath path).bind fs with
  | none | some (.symlink _) => false
  | some _ => true

/-- The paths of all entries. -/
def safeTargets (lower : Name → Name) (fs : FileSystem) (outputRoot : Path) :
    List FileEntry → Except Failure (List Path)
  | [] => .ok []
  | entry :: rest =>
      match safeGeneratedPath lower fs outputRoot entry.path with
      | .error failure => .error failure
      | .ok target =>
          match safeTargets lower fs outputRoot rest with
          | .error failure => .error failure
          | .ok targets => .ok (target :: targets)

/-- The targets, when they are distinct and may be written. -/
def checkTargets (lower : Name → Name) (fs : FileSystem) (outputRoot : Path)
    (entries : List FileEntry) (force : Bool) : Except Failure (List Path) :=
  match safeTargets lower fs outputRoot entries with
  | .error failure => .error failure
  | .ok targets =>
      if ¬ targets.Nodup then .error .duplicatePaths
      else
        match targets.find? fun target => pathExists fs target && !force with
        | some target => .error (.refuseOverwrite target)
        | none => .ok targets

/-- The write loop. -/
def writeTargets (fs : FileSystem) : List (FileEntry × Path) → FileSystem × Except Failure (List Path)
  | [] => (fs, .ok [])
  | (entry, target) :: rest =>
      match encodePath target with
      | none => (fs, .error .unencodablePath)
      | some key =>
          match Store.save fs key (encodeText entry.content) with
          | (fs', .error fault) => (fs', .error (.write fault))
          | (fs', .ok ()) =>
              match writeTargets fs' rest with
              | (fs'', .error failure) => (fs'', .error failure)
              | (fs'', .ok written) => (fs'', .ok (target :: written))

/-- `materialize_suite`: the file system afterwards, and what is returned or raised. -/
def materializeSuite (lower : Name → Name) (disk : Disk) (outputDir : Path) (generated : Json Nat)
    (force : Bool) : FileSystem × Except Failure (List Path) :=
  match validateGeneratedSuite generated with
  | .error failure => (disk.store, .error failure)
  | .ok entries =>
      match prepareOutputDirectory disk outputDir force with
      | .error failure => (disk.store, .error failure)
      | .ok (fs, outputRoot) =>
          match checkTargets lower fs outputRoot entries force with
          | .error failure => (fs, .error failure)
          | .ok targets => writeTargets fs (entries.zip targets)

end Icflow.Generate
