import Icflow.Foundation.Json.Limits
import Icflow.PinTool.Recording

set_option autoImplicit false

/-!
# `compare_icall_pairs.py`: reading result files

`discoverIcallFiles`, `parseAddress` and `loadPairs` are the three reading functions
of the comparison tool.  A `str` is a list of code points in a decoded JSON value, and
a list of characters in a path.  What differs between Python interpreters is a parameter:
the Unicode database that `int` consults, the digits that it converts, and how deep the
JSON decoder goes before it raises a `RecursionError`.

A decoded text is not passed through newline translation: a carriage return and a
line feed are both white space between JSON tokens and both errors inside a string.
-/

namespace Icflow.Compare

open Icflow.Foundation
open Icflow.Foundation.Json
open Icflow.PinTool

/-! ## Directory trees -/

/-- A file system object below the resolved root. -/
inductive Tree where
  | file (bytes : List Char)
  | directory (entries : List (List Char × Tree))
  /-- Anything else; `read` is what reading it gives, if it can be read. -/
  | special (read : Option (List Char))

mutual

/-- All descendants with their path components, as `rglob` walks them. -/
def Tree.descendants : Tree → List (List (List Char) × Tree)
  | .directory entries => entryDescendants entries
  | .file _ | .special _ => []

/-- `descendants` over the entries of a directory. -/
def entryDescendants : List (List Char × Tree) → List (List (List Char) × Tree)
  | [] => []
  | (name, tree) :: rest =>
      ([name], tree) :: (tree.descendants.map fun below => (name :: below.1, below.2)) ++
        entryDescendants rest

end

/-- `Path.as_posix` of a relative path. -/
def asPosix : List (List Char) → List Char
  | [] => []
  | [name] => name
  | name :: rest => name ++ '/' :: asPosix rest

/-- The suffix of result files. -/
def icallSuffix : List Char := "_icall.json".toList

/-- The last component matches `*_icall.json`. -/
def matchesIcall (parts : List (List Char)) : Bool :=
  icallSuffix.isSuffixOf (parts.getLastD [])

/-! ## Faults -/

/-- Which address a fault names. -/
inductive AddressLabel where
  | source
  | target
  deriving DecidableEq, Repr

/-- What `load_pairs` can raise, with the path or value its message names. -/
inductive PairsFault where
  /-- an `OSError` of the file system -/
  | osError (path : List Char)
  /-- `Expected an *_icall.json file: …` -/
  | expectedIcallFile (path : List Char)
  /-- `Expected a file or directory: …` -/
  | expectedFileOrDirectory (path : List Char)
  /-- `No *_icall.json files found under: …` -/
  | noFiles (path : List Char)
  /-- `UnicodeDecodeError` of `read_text` -/
  | decodeError (path : List Char)
  /-- `JSONDecodeError` of `json.loads` -/
  | jsonError (path : List Char)
  /-- `Exceeds the limit (…) for integer string conversion: …` of `json.loads` -/
  | tooManyDigits
  /-- `RecursionError` of `json.loads` -/
  | recursionError
  /-- `…: top-level JSON value must be an object` -/
  | notAnObject (path : List Char)
  /-- `…: targets for … must be a list` -/
  | notAList (path : List Char) (sourceText : List Nat)
  /-- `…: … address must be a string` -/
  | notAString (path : List Char) (label : AddressLabel)
  /-- `…: invalid … address …` -/
  | invalidAddress (path : List Char) (label : AddressLabel) (value : List Nat)
  deriving DecidableEq, Repr

/-- Whether the fault is a `ValueError`. -/
def PairsFault.isValueError : PairsFault → Bool
  | .osError _ | .recursionError => false
  | _ => true

/-! ## The three functions -/

/-- `discover_icall_files` on a resolved path; `none` is a path that does not exist. -/
def discoverIcallFiles (resolved : List Char) (root : Option Tree) :
    Except PairsFault (List (List Char × List Char × Tree)) :=
  match root with
  | none => .error (.osError resolved)
  | some (.file bytes) =>
      if icallSuffix.isSuffixOf (filename resolved) then
        .ok [(filename resolved, resolved, .file bytes)]
      else .error (.expectedIcallFile resolved)
  | some (.special _) => .error (.expectedFileOrDirectory resolved)
  | some (.directory entries) =>
      match ((entryDescendants entries).filter fun below => matchesIcall below.1).mergeSort
        fun a b => (compare a.1 b.1).isLE with
      | [] => .error (.noFiles resolved)
      | files => .ok (files.map fun below =>
          (asPosix below.1, resolved ++ '/' :: asPosix below.1, below.2))

/-- What differs between Python interpreters. -/
structure Interpreter where
  /-- the Unicode database from code point 127 on -/
  isSpace : Nat → Bool
  decimal : Nat → Option (Fin 10)
  /-- `sys.get_int_max_str_digits()`, where zero is no limit -/
  maxStrDigits : Nat
  /-- so many JSON containers inside one another are decoded -/
  maxNesting : Nat
  /-- some hundreds in fact -/
  two_le_maxNesting : 2 ≤ maxNesting

/-- An interpreter that knows no character outside ASCII. -/
def asciiPython : Interpreter where
  isSpace := fun _ => false
  decimal := fun _ => none
  maxStrDigits := 4300
  maxNesting := 900
  two_le_maxNesting := by decide

/-- The digits of a decimal number are not too many to convert. -/
def Interpreter.withinDigits (python : Interpreter) (text : List Char) : Bool :=
  python.maxStrDigits == 0 || decide (text.countP isDigit ≤ python.maxStrDigits)

/-- A number of a JSON text can be converted; only integers are limited. -/
def Interpreter.converts (python : Interpreter) (lexeme : List Char) : Bool :=
  !(lexeme.all fun c => isDigit c || c == '-') || python.withinDigits lexeme

/-- How far the JSON decoder goes. -/
def Interpreter.limits (python : Interpreter) : Limits where
  nesting := python.maxNesting
  converts := python.converts

/-- `_PyUnicode_TransformDecimalAndSpaceToASCII`: other characters become a question
mark, which ends the text. -/
def transformDecimalAndSpace (python : Interpreter) : List Nat → List Char
  | [] => []
  | ch :: rest =>
      if ch < 127 then Char.ofNat ch :: transformDecimalAndSpace python rest
      else if python.isSpace ch then ' ' :: transformDecimalAndSpace python rest
      else
        match python.decimal ch with
        | some digit => Nat.digitChar digit :: transformDecimalAndSpace python rest
        | none => ['?']

/-- `PyLong_FromString` in base zero; the digits behind a prefix such as `0x` are not limited. -/
def intLiteral (python : Interpreter) (text : List Char) : Option Int :=
  if text.any Char.isAlpha || python.withinDigits text then intBaseZero text else none

/-- Python's `int(value, 0)` on a `str`. -/
def intOfStr (python : Interpreter) (value : List Nat) : Option Int :=
  if value.all (· < 128) then intLiteral python (value.map Char.ofNat)
  else intLiteral python (transformDecimalAndSpace python value)

/-- `parse_address`. -/
def parseAddress (python : Interpreter) (value : Json Nat) (label : AddressLabel)
    (path : List Char) : Except PairsFault Int :=
  match value with
  | .str text =>
      match intOfStr python text with
      | some address => .ok address
      | none => .error (.invalidAddress path label text)
  | _ => .error (.notAString path label)

/-- `(identity, source, target)`. -/
abbrev Pair := List Char × Int × Int

/-- `d[key] = value` on an insertion-ordered dictionary. -/
def dictInsert (dict : List (List Nat × Json Nat)) (key : List Nat) (value : Json Nat) :
    List (List Nat × Json Nat) :=
  if dict.any (·.1 == key) then
    dict.map fun entry => if entry.1 = key then (key, value) else entry
  else dict ++ [(key, value)]

/-- The dictionary of a decoded object: of equal names the last value counts. -/
def dictOf (members : List (List Nat × Json Nat)) : List (List Nat × Json Nat) :=
  members.foldl (fun dict member => dictInsert dict member.1 member.2) []

/-- `path.read_text(encoding="utf-8")`. -/
def readText (path : List Char) : Tree → Except PairsFault (List Char)
  | .file bytes | .special (some bytes) =>
      match utf8Decode bytes with
      | some text => .ok text
      | none => .error (.decodeError path)
  | .directory _ | .special none => .error (.osError path)

/-- `json.loads` on the text of a file. -/
def jsonLoads (python : Interpreter) (path text : List Char) : Except PairsFault (Json Nat) :=
  match firstExcess codePointDialect python.limits text with
  | some .nesting => .error .recursionError
  | some .number => .error .tooManyDigits
  | none =>
      match parseStrict codePointDialect text with
      | some value => .ok value
      | none => .error (.jsonError path)

/-- The innermost loop of `load_pairs`. -/
def addTargets (python : Interpreter) (identity path : List Char) (source : Int) :
    List (Json Nat) → Finset Pair → Except PairsFault (Finset Pair)
  | [], pairs => .ok pairs
  | targetText :: rest, pairs =>
      match parseAddress python targetText .target path with
      | .error fault => .error fault
      | .ok target =>
          addTargets python identity path source rest (insert (identity, source, target) pairs)

/-- The loop of `load_pairs` over one payload. -/
def addItems (python : Interpreter) (identity path : List Char) :
    List (List Nat × Json Nat) → Finset Pair → Except PairsFault (Finset Pair)
  | [], pairs => .ok pairs
  | (sourceText, targets) :: rest, pairs =>
      match parseAddress python (.str sourceText) .source path with
      | .error fault => .error fault
      | .ok source =>
          match targets with
          | .arr elements =>
              match addTargets python identity path source elements pairs with
              | .error fault => .error fault
              | .ok pairs' => addItems python identity path rest pairs'
          | _ => .error (.notAList path sourceText)

/-- The body of the outer loop of `load_pairs`. -/
def addFile (python : Interpreter) (identity path : List Char) (tree : Tree)
    (pairs : Finset Pair) : Except PairsFault (Finset Pair) :=
  match readText path tree with
  | .error fault => .error fault
  | .ok text =>
      match jsonLoads python path text with
      | .error fault => .error fault
      | .ok (.obj members) => addItems python identity path (dictOf members) pairs
      | .ok _ => .error (.notAnObject path)

/-- The outer loop of `load_pairs`. -/
def addFiles (python : Interpreter) :
    List (List Char × List Char × Tree) → Finset Pair → Except PairsFault (Finset Pair)
  | [], pairs => .ok pairs
  | (identity, path, tree) :: rest, pairs =>
      match addFile python identity path tree pairs with
      | .error fault => .error fault
      | .ok pairs' => addFiles python rest pairs'

/-- `load_pairs`: the pairs and the identities of the files. -/
def loadPairs (python : Interpreter) (resolved : List Char) (root : Option Tree) :
    Except PairsFault (Finset Pair × List (List Char)) :=
  match discoverIcallFiles resolved root with
  | .error fault => .error fault
  | .ok files =>
      match addFiles python files ∅ with
      | .error fault => .error fault
      | .ok pairs => .ok (pairs, files.map Prod.fst)

end Icflow.Compare
