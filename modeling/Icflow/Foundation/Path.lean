import Icflow.Foundation.Occurrences
import Mathlib.Data.List.TakeWhile

set_option autoImplicit false

/-!
# Path texts

The last component of a path and the path before it, as `std::filesystem::path`,
`pathlib` and `basename` agree on them for paths without a trailing separator.
-/

namespace Icflow.Foundation

/-- The last component. -/
def filename (path : List Char) : List Char := (path.reverse.takeWhile (· != '/')).reverse

/-- The path without its last component and the separators before it; the root
directory is its own parent. -/
def parentPath (path : List Char) : List Char :=
  if path.all (· == '/') then path
  else
    match (path.reverse.dropWhile (· != '/')).dropWhile (· == '/') with
    | [] => path.take 1 |>.filter (· == '/')
    | stem => stem.reverse

/-- What stands before a separator does not belong to the last component. -/
theorem filename_append_cons (stem rest : List Char) :
    filename (stem ++ '/' :: rest) = filename rest := by
  have hstop : (rest.reverse ++ '/' :: stem.reverse).takeWhile (· != '/') =
      rest.reverse.takeWhile (· != '/') := by
    induction rest.reverse with
    | nil => rfl
    | cons c chars ih =>
        rw [List.cons_append, List.takeWhile_cons, List.takeWhile_cons, ih]
  rw [filename, filename, List.reverse_append, List.reverse_cons, List.append_assoc,
    List.singleton_append, hstop]

theorem filename_append (stem : List Char) {name : List Char} (hname : '/' ∉ name) :
    filename (stem ++ '/' :: name) = name := by
  have hkeep := bne_of_notMem (mt List.mem_reverse.mp hname)
  have htake : (name.reverse ++ '/' :: stem.reverse).takeWhile (· != '/') = name.reverse := by
    rw [List.takeWhile_append_of_pos hkeep]
    simp
  simp [filename, htake]

/-- A suffix without a separator belongs to the last component. -/
theorem filename_append_suffix (path : List Char) {suffix : List Char} (hsuffix : '/' ∉ suffix) :
    filename (path ++ suffix) = filename path ++ suffix := by
  have hkeep := bne_of_notMem (mt List.mem_reverse.mp hsuffix)
  rw [filename, List.reverse_append, List.takeWhile_append_of_pos hkeep, List.reverse_append,
    List.reverse_reverse, filename]

theorem slash_notMem_filename (path : List Char) : '/' ∉ filename path := by
  intro h
  rw [filename, List.mem_reverse] at h
  have hslash := List.mem_takeWhile_imp h
  simp at hslash

end Icflow.Foundation
