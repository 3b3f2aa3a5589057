import Mathlib.Data.List.Infix

set_option autoImplicit false

/-!
# File names of `generate_tests.py`

A Python `str` is a list of code points; a name the system cannot decode holds lone
surrogates.  `lower` is `str.lower`, a function on all of Unicode of which nothing is
used: every result holds whatever it is.
-/

namespace Icflow.Generate

/-- A component of a path. -/
abbrev Name := List Nat

/-- The components of a path, below the root directory or below another path. -/
abbrev Path := List Name

/-- The code points of a literal of the source. -/
def text (s : String) : Name := s.toList.map Char.toNat

/-- `SOURCE_SUFFIXES` -/
def sourceSuffixes : List Name :=
  [text ".c", text ".cc", text ".cpp", text ".cxx", text ".h", text ".hh", text ".hpp",
    text ".hxx", text ".go", text ".java", text ".js", text ".jsx", text ".py", text ".rs",
    text ".sh", text ".ts", text ".tsx"]

/-- `IMPORTANT_NAMES` -/
def importantNames : List Name :=
  [text "CMakeLists.txt", text "Makefile", text "meson.build", text "configure.ac",
    text "Cargo.toml", text "go.mod", text "package.json", text "pyproject.toml",
    text "README", text "README.md"]

/-- `EXCLUDED_DIRECTORIES` -/
def excludedDirectories : List Name :=
  [text ".git", text ".hg", text ".svn", text ".idea", text ".vscode", text "__pycache__",
    text "build", text "cmake-build-debug", text "cmake-build-release", text "coverage",
    text "dist", text "node_modules", text "out", text "target", text "third_party",
    text "third-party", text "vendor", text "venv", text ".venv"]

/-- `SENSITIVE_NAME_FRAGMENTS` -/
def sensitiveNameFragments : List Name :=
  [text ".env", text "credential", text "id_rsa", text "private_key", text "secret",
    text "token"]

/-- `/` -/
def slash : Nat := 47

/-- `.` -/
def dot : Nat := 46

/-- A name an entry of a directory can have. -/
structure ValidName (name : Name) : Prop where
  slash_notMem : slash ∉ name
  ne_nil : name ≠ []
  ne_dot : name ≠ text "."
  ne_dotdot : name ≠ text ".."

/-- `str.lower` on ASCII texts. -/
def asciiLower (name : Name) : Name :=
  name.map fun point => if 65 ≤ point ∧ point ≤ 90 then point + 32 else point

/-- `is_sensitive_name`, of the last component -/
def isSensitiveName (lower : Name → Name) (name : Name) : Bool :=
  sensitiveNameFragments.any fun fragment => decide (fragment <:+: lower name)

/-- `directory_name in EXCLUDED_DIRECTORIES or directory_name.startswith(".")` -/
def isExcludedDirectory (name : Name) : Bool :=
  excludedDirectories.contains name || name.head? == some dot

/-- `PurePath.suffix`: from the last dot on, unless it is the first or the last
character. -/
def suffix (name : Name) : Name :=
  let extension := (name.reverse.takeWhile (· != dot)).reverse
  let stem := name.length - (extension.length + 1)
  if 0 < stem ∧ extension ≠ [] then dot :: extension else []

/-- The check of a file name that decides what is worth reading. -/
def isEligibleName (lower : Name → Name) (name : Name) : Bool :=
  importantNames.contains name || sourceSuffixes.contains (lower (suffix name))

/-- `relative.as_posix()` -/
def asPosix (parts : Path) : Name := List.intercalate [slash] parts

/-- The components of a path that `as_posix` has written. -/
def partsOf (path : Name) : Path := path.splitOn slash

theorem partsOf_asPosix {parts : Path} (hparts : parts ≠ [])
    (hvalid : ∀ name ∈ parts, ValidName name) : partsOf (asPosix parts) = parts :=
  List.splitOn_intercalate slash (fun name hname => (hvalid name hname).slash_notMem) hparts

end Icflow.Generate
