import Icflow.Foundation.SaveAll
import Icflow.Foundation.Utf8
import Icflow.Generate.Names

set_option autoImplicit false

/-!
# The file system the generated tests are written to

Python names a file by a `str`, the system by bytes: `fsencode` goes from one to the
other, and two names with the same bytes are the same file.  A symbolic link holds the
path that `realpath` makes of its text; a link that leads to itself holds a path that is
stopped by a link again.
-/

namespace Icflow.Generate

open Icflow.Foundation

/-- The path of an object on disk: the bytes of its components. -/
abbrev Key := List (List Char)

/-- The objects by path. -/
abbrev FileSystem := Store (List Char) Path

/-! ## Encoding -/

/-- A code point that is half of a surrogate pair. -/
def isSurrogate (point : Nat) : Bool := decide (0xD800 ≤ point ∧ point ≤ 0xDFFF)

/-- A code point in a file name; those that stand for a byte that could not be decoded
give the byte back (`surrogateescape`). -/
def fsencodePoint (point : Nat) : Option (List Char) :=
  if point = 0 then none
  else if 0xDC80 ≤ point ∧ point ≤ 0xDCFF then some [Char.ofNat (point - 0xDC00)]
  else if isSurrogate point then none
  else some (utf8Bytes point)

/-- The bytes of a file name; `none` is the `ValueError` of the system calls. -/
def fsencode (name : Name) : Option (List Char) := (name.mapM fsencodePoint).map List.flatten

/-- The bytes of a path. -/
def encodePath (path : Path) : Option Key := path.mapM fsencode

/-- A code point in a text. -/
def encodePoint (point : Nat) : Option (List Char) :=
  if isSurrogate point then none else some (utf8Bytes point)

/-- `str.encode("utf-8")`; `none` is a `UnicodeEncodeError`. -/
def encodeText (content : Name) : Option (List Char) := (content.mapM encodePoint).map List.flatten

theorem isSome_mapM_iff {α β : Type} {f : α → Option β} {items : List α} :
    (items.mapM f).isSome = true ↔ ∀ item ∈ items, (f item).isSome = true := by
  induction items with
  | nil => simp
  | cons first rest ih =>
      rw [List.forall_mem_cons, ← ih, List.mapM_cons]
      cases hfirst : f first with
      | none => simp
      | some value => cases hrest : rest.mapM f <;> simp

theorem encodePath_append {first second : Path} {key : Key} :
    encodePath (first ++ second) = some key ↔
      ∃ before after, encodePath first = some before ∧ encodePath second = some after ∧
        key = before ++ after := by
  rw [encodePath, List.mapM_append]
  cases hfirst : first.mapM fsencode with
  | none => simp [encodePath, hfirst]
  | some before =>
      cases hsecond : second.mapM fsencode with
      | none => simp [encodePath, hfirst, hsecond]
      | some after => simp [encodePath, hfirst, hsecond, eq_comm]

theorem encodePath_below {upper reached : Path} {upperKey : Key}
    (hupper : encodePath upper = some upperKey) :
    encodePath (upper ++ reached) = (encodePath reached).map (upperKey ++ ·) := by
  ext key
  rw [encodePath_append, hupper, Option.map_eq_some_iff]
  simp [eq_comm]

/-- A key that is below another one. -/
theorem above_of_encodePath {upper reached : Path} {upperKey key : Key} (hne : reached ≠ [])
    (hupper : encodePath upper = some upperKey) (hkey : encodePath (upper ++ reached) = some key) :
    Store.Above upperKey key := by
  obtain ⟨before, after, hbefore, hafter, rfl⟩ := encodePath_append.mp hkey
  obtain rfl := Option.some.inj (hupper.symm.trans hbefore)
  refine ⟨List.prefix_append _ _, fun heq => ?_⟩
  obtain rfl := List.append_right_eq_self.mp heq.symm
  cases reached with
  | nil => exact hne rfl
  | cons name rest =>
      cases hname : fsencode name with
      | none => simp [encodePath, hname] at hafter
      | some bytes => cases hrest : rest.mapM fsencode <;> simp [encodePath, hname, hrest] at hafter

/-- A point that becomes ASCII is ASCII. -/
theorem fsencodePoint_ascii {point : Nat} {bytes : List Char} (h : fsencodePoint point = some bytes)
    (hascii : IsAscii bytes) : bytes.map Char.toNat = [point] := by
  have htoNat : ∀ byte, byte < 0x100 → (Char.ofNat byte).toNat = byte := fun byte hbyte => by
    rw [Char.ofNat, dif_pos (Or.inl (by omega))]
    rfl
  have hlast : ∀ before, ¬ IsAscii (before ++ [Char.ofNat (0x80 + point % 0x40)]) := by
    intro before hbefore
    have hbyte := (isAscii_append.mp hbefore).2 _ (List.mem_singleton_self _)
    rw [htoNat _ (by omega)] at hbyte
    omega
  unfold fsencodePoint at h
  split at h
  · cases h
  · split at h
    · -- a byte that could not be decoded is no ASCII
      obtain rfl := Option.some.inj h
      have hbyte := hascii _ (List.mem_singleton_self _)
      rw [htoNat _ (by omega)] at hbyte
      omega
    · split at h
      · cases h
      · obtain rfl := Option.some.inj h
        rw [utf8Bytes] at hascii ⊢
        split at hascii
        · rename_i hsmall
          rw [if_pos hsmall, List.map_singleton, htoNat _ (by omega)]
        · split at hascii
          · exact absurd hascii (hlast [_])
          · split at hascii
            · exact absurd hascii (hlast [_, _])
            · exact absurd hascii (hlast [_, _, _])

/-- Only an ASCII name has ASCII bytes. -/
theorem fsencode_ascii {name : Name} {bytes : List Char} (h : fsencode name = some bytes)
    (hascii : IsAscii bytes) : bytes.map Char.toNat = name := by
  rw [fsencode, Option.map_eq_some_iff] at h
  obtain ⟨pieces, hpieces, rfl⟩ := h
  induction name generalizing pieces with
  | nil =>
      obtain rfl := Option.some.inj hpieces
      rfl
  | cons point rest ih =>
      cases hpoint : fsencodePoint point with
      | none => simp [hpoint] at hpieces
      | some first =>
          cases hrest : rest.mapM fsencodePoint with
          | none => simp [hpoint, hrest] at hpieces
          | some later =>
              obtain rfl : first :: later = pieces := by simpa [hpoint, hrest] using hpieces
              rw [List.flatten_cons, isAscii_append] at hascii
              rw [List.flatten_cons, List.map_append, fsencodePoint_ascii hpoint hascii.1,
                ih later hrest hascii.2, List.singleton_append]

/-- Paths below one another have keys below one another. -/
theorem prefix_of_encodePath {upper path : Path} {upperKey key : Key} (h : upper <+: path)
    (hupper : encodePath upper = some upperKey) (hpath : encodePath path = some key) :
    upperKey <+: key := by
  obtain ⟨rest, rfl⟩ := h
  obtain ⟨before, after, hbefore, _, rfl⟩ := encodePath_append.mp hpath
  obtain rfl := Option.some.inj (hupper.symm.trans hbefore)
  exact List.prefix_append _ _

theorem encodePath_isSome_append {first second : Path} :
    (encodePath (first ++ second)).isSome = true ↔
      (encodePath first).isSome = true ∧ (encodePath second).isSome = true := by
  rw [encodePath, List.mapM_append]
  cases hfirst : first.mapM fsencode with
  | none => simp [encodePath, hfirst]
  | some before =>
      cases hsecond : second.mapM fsencode <;> simp [encodePath, hfirst, hsecond]

/-! ## Resolving -/

/-- `..` -/
def dotdot : Name := text ".."

/-- `realpath`, from a resolved path on: components are taken one by one, and a link is
replaced by what it holds.  `none` is the `ValueError` of `lstat`. -/
def resolveFrom (fs : FileSystem) : Path → Path → Option Path
  | path, [] => some path
  | path, name :: rest =>
      if name = dotdot then resolveFrom fs path.dropLast rest
      else
        match encodePath (path ++ [name]) with
        | none => none
        | some key =>
            match fs key with
            | some (.symlink target) => resolveFrom fs target rest
            | _ => resolveFrom fs (path ++ [name]) rest

/-- `Path.resolve(strict=False)` of an absolute path -/
def resolve (fs : FileSystem) (path : Path) : Option Path := resolveFrom fs [] path

section Steps

variable {fs : FileSystem} {path rest : Path} {name : Name} {key : Key}

theorem resolveFrom_up : resolveFrom fs path (dotdot :: rest) = resolveFrom fs path.dropLast rest :=
  if_pos rfl

theorem resolveFrom_unencodable (hname : name ≠ dotdot) (hkey : encodePath (path ++ [name]) = none) :
    resolveFrom fs path (name :: rest) = none := by
  rw [resolveFrom, if_neg hname, hkey]

theorem resolveFrom_link (hname : name ≠ dotdot) (hkey : encodePath (path ++ [name]) = some key)
    {target : Path} (hlink : fs key = some (.symlink target)) :
    resolveFrom fs path (name :: rest) = resolveFrom fs target rest := by
  rw [resolveFrom, if_neg hname, hkey]
  simp only [hlink]

theorem resolveFrom_step (hname : name ≠ dotdot) (hkey : encodePath (path ++ [name]) = some key)
    (hnode : ∀ target, fs key ≠ some (.symlink target)) :
    resolveFrom fs path (name :: rest) = resolveFrom fs (path ++ [name]) rest := by
  rw [resolveFrom, if_neg hname, hkey]
  dsimp only
  split
  · rename_i target hlink
    exact absurd hlink (hnode target)
  · rfl

end Steps

/-- Resolving looks at nothing but links. -/
theorem resolveFrom_congr {fs fs' : FileSystem}
    (hlinks : ∀ key target, fs' key = some (.symlink target) ↔ fs key = some (.symlink target))
    (path rest : Path) : resolveFrom fs' path rest = resolveFrom fs path rest := by
  induction rest generalizing path with
  | nil => rfl
  | cons name rest ih =>
      by_cases hname : name = dotdot
      · rw [hname, resolveFrom_up, resolveFrom_up, ih]
      · cases hkey : encodePath (path ++ [name]) with
        | none => rw [resolveFrom_unencodable hname hkey, resolveFrom_unencodable hname hkey]
        | some key =>
            by_cases hlink : ∃ target, fs key = some (.symlink target)
            · obtain ⟨target, htarget⟩ := hlink
              rw [resolveFrom_link hname hkey htarget,
                resolveFrom_link hname hkey ((hlinks key target).mpr htarget), ih]
            · have hnode : ∀ target, fs key ≠ some (.symlink target) := fun target h =>
                hlink ⟨target, h⟩
              have hnode' : ∀ target, fs' key ≠ some (.symlink target) := fun target h =>
                hlink ⟨target, (hlinks key target).mp h⟩
              rw [resolveFrom_step hname hkey hnode, resolveFrom_step hname hkey hnode', ih]

/-- The components of a path are taken in turn. -/
theorem resolveFrom_append (fs : FileSystem) (path first second : Path) :
    resolveFrom fs path (first ++ second) =
      (resolveFrom fs path first).bind (resolveFrom fs · second) := by
  induction first generalizing path with
  | nil => rfl
  | cons name first ih =>
      rw [List.cons_append]
      by_cases hname : name = dotdot
      · rw [hname, resolveFrom_up, resolveFrom_up, ih]
      · cases hkey : encodePath (path ++ [name]) with
        | none =>
            rw [resolveFrom_unencodable hname hkey, resolveFrom_unencodable hname hkey,
              Option.bind_none]
        | some key =>
            by_cases hlink : ∃ target, fs key = some (.symlink target)
            · obtain ⟨target, htarget⟩ := hlink
              rw [resolveFrom_link hname hkey htarget, resolveFrom_link hname hkey htarget, ih]
            · have hnode : ∀ target, fs key ≠ some (.symlink target) := fun target h =>
                hlink ⟨target, h⟩
              rw [resolveFrom_step hname hkey hnode, resolveFrom_step hname hkey hnode, ih]

/-- A path as `resolve` gives them. -/
structure Plain (path : Path) : Prop where
  encodes : (encodePath path).isSome = true
  dotdot_notMem : dotdot ∉ path

/-- The links hold such paths. -/
def LinksPlain (fs : FileSystem) : Prop :=
  ∀ key target, fs key = some (.symlink target) → Plain target

theorem plain_nil : Plain [] := ⟨rfl, List.not_mem_nil⟩

theorem Plain.dropLast {path : Path} (h : Plain path) : Plain path.dropLast where
  encodes := by
    have hsplit := h.encodes
    rcases List.eq_nil_or_concat' path with rfl | ⟨init, name, rfl⟩
    · exact h.encodes
    · rw [List.dropLast_concat]
      exact (encodePath_isSome_append.mp hsplit).1
  dotdot_notMem := fun hmem => h.dotdot_notMem (List.mem_of_mem_dropLast hmem)

theorem resolveFrom_plain {fs : FileSystem} (hlinks : LinksPlain fs) {path rest resolved : Path}
    (hpath : Plain path) (h : resolveFrom fs path rest = some resolved) : Plain resolved := by
  induction rest generalizing path with
  | nil =>
      obtain rfl := Option.some.inj h
      exact hpath
  | cons name rest ih =>
      by_cases hname : name = dotdot
      · rw [hname, resolveFrom_up] at h
        exact ih hpath.dropLast h
      · cases hkey : encodePath (path ++ [name]) with
        | none =>
            rw [resolveFrom_unencodable hname hkey] at h
            cases h
        | some key =>
            by_cases hlink : ∃ target, fs key = some (.symlink target)
            · obtain ⟨target, htarget⟩ := hlink
              rw [resolveFrom_link hname hkey htarget] at h
              exact ih (hlinks key target htarget) h
            · rw [resolveFrom_step hname hkey fun target hnode => hlink ⟨target, hnode⟩] at h
              refine ih ⟨Option.isSome_of_eq_some hkey, fun hmem => ?_⟩ h
              rcases List.mem_append.mp hmem with hbefore | hlast
              · exact hpath.dotdot_notMem hbefore
              · exact hname (List.mem_singleton.mp hlast).symm

theorem resolve_plain {fs : FileSystem} (hlinks : LinksPlain fs) {path resolved : Path}
    (h : resolve fs path = some resolved) : Plain resolved :=
  resolveFrom_plain hlinks plain_nil h

/-- Nothing on the way is a link. -/
def Straight (fs : FileSystem) (path : Path) : Prop :=
  ∀ reached key, reached <+: path → encodePath reached = some key →
    ∀ target, fs key ≠ some (.symlink target)

/-- When no link is below where it starts, a path without `..` leads where it says. -/
theorem resolveFrom_below_iff {fs : FileSystem} {path rest resolved : Path}
    (hpath : (encodePath path).isSome = true) (hdots : dotdot ∉ rest)
    (hbelow : ∀ reached key, reached ≠ [] → encodePath (path ++ reached) = some key →
      reached <+: rest → ∀ target, fs key ≠ some (.symlink target)) :
    resolveFrom fs path rest = some resolved ↔
      (encodePath rest).isSome = true ∧ resolved = path ++ rest := by
  induction rest generalizing path with
  | nil => simp [resolveFrom, encodePath, eq_comm]
  | cons name rest ih =>
      obtain ⟨hname, hrest⟩ := not_or.mp (mt List.mem_cons.mpr hdots)
      cases hkey : encodePath (path ++ [name]) with
      | none =>
          have hnone : ¬ (encodePath [name]).isSome = true := fun h => by
            have hboth := encodePath_isSome_append.mpr ⟨hpath, h⟩
            simp [hkey] at hboth
          have hall : ¬ (encodePath ([name] ++ rest)).isSome = true := fun h =>
            hnone (encodePath_isSome_append.mp h).1
          rw [resolveFrom_unencodable (Ne.symm hname) hkey]
          exact iff_of_false (Option.some_ne_none _).symm fun h => hall h.1
      | some key =>
          have hboth := encodePath_isSome_append.mp (Option.isSome_of_eq_some hkey)
          have hencode : (encodePath ([name] ++ rest)).isSome = true ↔
              (encodePath rest).isSome = true :=
            encodePath_isSome_append.trans (and_iff_right hboth.2)
          have hfirst : [name] <+: name :: rest := List.prefix_append [name] rest
          have hbelow' : ∀ reached key, reached ≠ [] →
              encodePath (path ++ [name] ++ reached) = some key → reached <+: rest →
              ∀ target, fs key ≠ some (.symlink target) := by
            intro reached key' _ hencodes hreached
            rw [List.append_assoc] at hencodes
            exact hbelow (name :: reached) key' (List.cons_ne_nil _ _) hencodes
              (List.cons_prefix_cons.mpr ⟨rfl, hreached⟩)
          rw [resolveFrom_step (Ne.symm hname) hkey
            (hbelow [name] key (List.cons_ne_nil _ _) hkey hfirst)]
          rw [ih (Option.isSome_of_eq_some hkey) hrest hbelow', ← hencode, List.append_assoc,
            List.singleton_append]

/-- A resolved path resolves to itself when no link is on the way. -/
theorem resolve_straight {fs : FileSystem} {path : Path} (hplain : Plain path)
    (hstraight : Straight fs path) : resolve fs path = some path :=
  (resolveFrom_below_iff rfl hplain.dotdot_notMem fun reached key _ hencodes hreached =>
    hstraight reached key hreached (by rwa [List.nil_append] at hencodes)).mpr ⟨hplain.encodes, rfl⟩

/-! ## Disks -/

/-- A file system with the finitely many objects of a list. -/
def storeOf (objects : List (Key × Node Path)) : FileSystem := fun key =>
  if key = [] then some .directory else objects.lookup key

/-- The objects on disk before a run: everything is in a directory, and links hold
resolved paths. -/
structure Disk where
  objects : List (Key × Node Path)
  inDirectory : ∀ object ∈ objects,
    object.1 ≠ [] ∧ storeOf objects object.1.dropLast = some .directory
  linksPlain : ∀ object ∈ objects, ∀ target, object.2 = .symlink target → Plain target

namespace Disk

/-- The objects by path. -/
def store (disk : Disk) : FileSystem := storeOf disk.objects

theorem mem_of_store (disk : Disk) {key : Key} {node : Node Path} (hkey : key ≠ [])
    (h : disk.store key = some node) : (key, node) ∈ disk.objects := by
  rw [store, storeOf, if_neg hkey] at h
  obtain ⟨before, after, hobjects, _⟩ := List.lookup_eq_some_iff.mp h
  rw [hobjects]
  exact List.mem_append_right _ List.mem_cons_self

theorem wellFormed (disk : Disk) : Store.WellFormed disk.store where
  root := by rw [store, storeOf, if_pos rfl]
  parent := by
    intro key name h
    obtain ⟨node, hnode⟩ := Option.ne_none_iff_exists'.mp h
    have hmem := disk.mem_of_store (List.concat_ne_nil name key) hnode
    have hparent := (disk.inDirectory _ hmem).2
    rwa [List.dropLast_concat] at hparent

theorem store_linksPlain (disk : Disk) : LinksPlain disk.store := by
  intro key target h
  by_cases hkey : key = []
  · rw [hkey, disk.wellFormed.root] at h
    cases h
  · exact disk.linksPlain _ (disk.mem_of_store hkey h) target rfl

/-- `any(directory.iterdir())` -/
def hasEntries (disk : Disk) (key : Key) : Bool :=
  disk.objects.any fun object => object.1.dropLast == key

/-- Nothing is below a directory without entries. -/
theorem store_of_above (disk : Disk) {upper key : Key} (hempty : disk.hasEntries upper = false)
    (habove : Store.Above upper key) : disk.store key = none := by
  by_contra hsome
  obtain ⟨rest, rfl⟩ := habove.1
  cases rest with
  | nil => exact habove.2 (List.append_nil upper).symm
  | cons name rest =>
      have hchild : disk.store (upper ++ [name]) ≠ none := by
        by_cases hrest : rest = []
        · rwa [hrest] at hsome
        · have hinside : Store.Above (upper ++ [name]) (upper ++ name :: rest) := by
            refine ⟨⟨rest, by rw [List.append_assoc, List.singleton_append]⟩, ?_⟩
            intro heq
            rw [List.append_cancel_left_eq, List.cons.injEq] at heq
            exact hrest heq.2.symm
          rw [disk.wellFormed.above hsome hinside]
          exact Option.some_ne_none _
      obtain ⟨node, hnode⟩ := Option.ne_none_iff_exists'.mp hchild
      have hmem := disk.mem_of_store (List.concat_ne_nil name upper) hnode
      have hentry : disk.hasEntries upper = true :=
        List.any_eq_true.mpr ⟨_, hmem, by rw [List.dropLast_concat]; exact beq_self_eq_true upper⟩
      rw [hempty] at hentry
      cases hentry

end Disk

/-- A disk with nothing on it. -/
def emptyDisk : Disk where
  objects := []
  inDirectory := List.forall_mem_nil _
  linksPlain := List.forall_mem_nil _

end Icflow.Generate
