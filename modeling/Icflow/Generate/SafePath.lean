import Icflow.Generate.Suite

set_option autoImplicit false

/-!
# Which names are safe

`safe_generated_path` accepts a name by its components alone, and puts it below the output
root.  Links below the root can only make it refuse more: what it returns is inside.
-/

namespace Icflow.Generate

open Icflow.Foundation

/-- A name for a generated file, seen through the components that are left when the empty
ones and `.` are dropped. -/
structure SafeName (lower : Name → Name) (name : Name) : Prop where
  backslash_notMem : backslash ∉ name
  relative : name.head? ≠ some slash
  parts_ne_nil : purePosixParts name ≠ []
  dotdot_notMem : dotdot ∉ purePosixParts name
  /-- ignoring case -/
  unreserved : lower (asPosix (purePosixParts name)) ∉ reservedOutputNames

/-- No object below `root` is a link. -/
def NoLinksBelow (fs : FileSystem) (root : Path) : Prop :=
  ∀ reached key, reached ≠ [] → encodePath (root ++ reached) = some key →
    ∀ target, fs key ≠ some (.symlink target)

/-! ## Components -/

theorem subset_of_mem_splitOn {separator : Nat} {name part : Name}
    (h : part ∈ name.splitOn separator) : ∀ point ∈ part, point ∈ name := by
  induction name generalizing part with
  | nil =>
      rw [List.splitOn_nil, List.mem_singleton] at h
      subst h
      exact List.forall_mem_nil _
  | cons first rest ih =>
      rw [List.splitOn_cons_eq_if_modifyHead] at h
      split at h
      · rcases List.mem_cons.mp h with rfl | hrest
        · exact List.forall_mem_nil _
        · exact fun point hpoint => List.mem_cons_of_mem _ (ih hrest point hpoint)
      · cases hsplit : rest.splitOn separator with
        | nil => exact absurd hsplit (List.splitOn_ne_nil _ _)
        | cons head tail =>
            rw [hsplit, List.modifyHead_cons] at h
            rw [hsplit] at ih
            rcases List.mem_cons.mp h with rfl | htail
            · refine List.forall_mem_cons.mpr ⟨List.mem_cons_self, fun point hpoint => ?_⟩
              exact List.mem_cons_of_mem _ (ih List.mem_cons_self point hpoint)
            · exact fun point hpoint =>
                List.mem_cons_of_mem _ (ih (List.mem_cons_of_mem _ htail) point hpoint)

/-- The components of a name that can be encoded can be encoded. -/
theorem encodes_purePosixParts {name : Name} (h : (fsencode name).isSome = true) :
    (encodePath (purePosixParts name)).isSome = true := by
  rw [fsencode, Option.isSome_map, isSome_mapM_iff] at h
  rw [encodePath, isSome_mapM_iff]
  intro part hpart
  have hsplit := (List.mem_filter.mp hpart).1
  rw [fsencode, Option.isSome_map, isSome_mapM_iff]
  exact fun point hpoint => h point (subset_of_mem_splitOn hsplit point hpoint)

theorem part_of_mem_purePosixParts {name part : Name} (h : part ∈ purePosixParts name) :
    part ≠ [] ∧ part ≠ text "." := of_decide_eq_true (List.mem_filter.mp h).2

/-- Of the components that are refused only `..` can be left. -/
theorem any_refused_iff {name : Name} :
    (purePosixParts name).any [text "", text ".", text ".."].contains = true ↔
      dotdot ∈ purePosixParts name := by
  rw [List.any_eq_true]
  constructor
  · rintro ⟨part, hpart, hrefused⟩
    obtain ⟨hempty, hdot⟩ := part_of_mem_purePosixParts hpart
    rw [List.contains_iff_mem, List.mem_cons, List.mem_cons, List.mem_singleton] at hrefused
    rcases hrefused with rfl | rfl | rfl
    · exact absurd rfl hempty
    · exact absurd rfl hdot
    · exact hpart
  · intro hpart
    exact ⟨dotdot, hpart, rfl⟩

/-! ## What is accepted -/

section Accepts

variable {lower : Name → Name} {fs : FileSystem} {root resolvedRoot : Path} {name : Name}

/-- The checks of the name come first. -/
theorem safeGeneratedPath_of_safeName (h : SafeName lower name) :
    safeGeneratedPath lower fs root name =
      match resolve fs (root ++ purePosixParts name), resolve fs root with
      | some target, some resolvedRoot =>
          if resolvedRoot <+: target then .ok target else .error (.escapes name)
      | _, _ => .error .unencodablePath := by
  have hbackslash : ¬ name.contains backslash = true := by simpa using h.backslash_notMem
  have habsolute : (name.head? == some slash) = false := beq_eq_false_iff_ne.mpr h.relative
  have hempty : (purePosixParts name).isEmpty = false := by simpa using h.parts_ne_nil
  have hrefused : (purePosixParts name).any [text "", text ".", text ".."].contains = false :=
    Bool.eq_false_iff.mpr fun hany => h.dotdot_notMem (any_refused_iff.mp hany)
  have hshape : ¬ (name.head? == some slash || (purePosixParts name).isEmpty ||
      (purePosixParts name).any [text "", text ".", text ".."].contains) = true := by
    simp [habsolute, hempty, hrefused]
  have hreserved : ¬ reservedOutputNames.contains (lower (asPosix (purePosixParts name))) = true := by
    simpa using h.unreserved
  exact (if_neg hbackslash).trans ((if_neg hshape).trans (if_neg hreserved))

theorem safeName_of_ok {target : Path} (h : safeGeneratedPath lower fs root name = .ok target) :
    SafeName lower name := by
  unfold safeGeneratedPath at h
  split at h
  · cases h
  · rename_i hbackslash
    dsimp only at h
    split at h
    · cases h
    · rename_i hchecks
      split at h
      · cases h
      · rename_i hreserved
        simp only [Bool.or_eq_true, not_or, beq_iff_eq, List.isEmpty_iff, any_refused_iff] at hchecks
        simp only [List.contains_iff_mem] at hbackslash hreserved
        exact ⟨hbackslash, hchecks.1.1, hchecks.1.2, hchecks.2, hreserved⟩

/-- Whatever the links are, a target is inside the resolved root. -/
theorem inside_of_ok {target : Path} (h : safeGeneratedPath lower fs root name = .ok target) :
    ∃ resolvedRoot, resolve fs root = some resolvedRoot ∧ resolvedRoot <+: target := by
  rw [safeGeneratedPath_of_safeName (safeName_of_ok h)] at h
  cases htarget : resolve fs (root ++ purePosixParts name) with
  | none => simp [htarget] at h
  | some found =>
      cases hroot : resolve fs root with
      | none => simp [htarget, hroot] at h
      | some resolvedRoot =>
          rw [htarget, hroot] at h
          dsimp only at h
          by_cases hinside : resolvedRoot <+: found
          · rw [if_pos hinside] at h
            obtain rfl := Except.ok.inj h
            exact ⟨resolvedRoot, rfl, hinside⟩
          · rw [if_neg hinside] at h
            cases h

/-- Without links below the root, a safe name is put below the root as it is. -/
theorem ok_of_safeName (hplain : LinksPlain fs) (hroot : resolve fs root = some resolvedRoot)
    (hbelow : NoLinksBelow fs resolvedRoot) (hencodes : (fsencode name).isSome = true)
    (h : SafeName lower name) :
    safeGeneratedPath lower fs root name = .ok (resolvedRoot ++ purePosixParts name) := by
  have htarget : resolve fs (root ++ purePosixParts name) =
      some (resolvedRoot ++ purePosixParts name) := by
    rw [resolve, resolveFrom_append, ← resolve, hroot, Option.bind_some]
    refine (resolveFrom_below_iff (resolve_plain hplain hroot).encodes h.dotdot_notMem ?_).mpr
      ⟨encodes_purePosixParts hencodes, rfl⟩
    exact fun reached key hne hkey _ => hbelow reached key hne hkey
  rw [safeGeneratedPath_of_safeName h, htarget, hroot]
  exact if_pos (List.prefix_append _ _)

end Accepts

/-- A name is accepted exactly when it is safe; its target is the root extended by its
components, and so it is only shared by names with the same components.  With links below
the root targets stay inside. -/
theorem safeGeneratedPath_spec (lower : Name → Name) {fs : FileSystem} (hplain : LinksPlain fs)
    {root resolvedRoot : Path} (hroot : resolve fs root = some resolvedRoot) :
    (NoLinksBelow fs resolvedRoot →
      (∀ name, (fsencode name).isSome = true →
        ((∃ target, safeGeneratedPath lower fs root name = .ok target) ↔ SafeName lower name)) ∧
      (∀ name target, (fsencode name).isSome = true →
        safeGeneratedPath lower fs root name = .ok target →
        target = resolvedRoot ++ purePosixParts name ∧ Store.Above resolvedRoot target) ∧
      ∀ name name' target target', (fsencode name).isSome = true → (fsencode name').isSome = true →
        safeGeneratedPath lower fs root name = .ok target →
        safeGeneratedPath lower fs root name' = .ok target' →
        (target = target' ↔ purePosixParts name = purePosixParts name')) ∧
    ∀ name target, safeGeneratedPath lower fs root name = .ok target → resolvedRoot <+: target := by
  have hinside : ∀ name target, safeGeneratedPath lower fs root name = .ok target →
      resolvedRoot <+: target := by
    intro name target h
    obtain ⟨found, hfound, hprefix⟩ := inside_of_ok h
    rwa [Option.some.inj (hroot.symm.trans hfound)]
  refine ⟨fun hbelow => ?_, hinside⟩
  have htarget : ∀ name target, (fsencode name).isSome = true →
      safeGeneratedPath lower fs root name = .ok target →
      target = resolvedRoot ++ purePosixParts name := by
    intro name target hencodes h
    have hok := ok_of_safeName hplain hroot hbelow hencodes (safeName_of_ok h)
    exact Except.ok.inj (h.symm.trans hok)
  refine ⟨?_, ?_, ?_⟩
  · intro name hencodes
    constructor
    · rintro ⟨target, h⟩
      exact safeName_of_ok h
    · intro h
      exact ⟨_, ok_of_safeName hplain hroot hbelow hencodes h⟩
  · intro name target hencodes h
    have heq := htarget name target hencodes h
    refine ⟨heq, hinside name target h, ?_⟩
    rw [heq]
    intro hsame
    exact (safeName_of_ok h).parts_ne_nil (List.append_right_eq_self.mp hsame.symm)
  · intro name name' target target' hencodes hencodes' h h'
    rw [htarget name target hencodes h, htarget name' target' hencodes' h',
      List.append_cancel_left_eq]

/-- A file system with nothing in it has no links. -/
theorem storeOf_nil_ne_symlink (key : Key) (target : Path) : storeOf [] key ≠ some (.symlink target) := by
  unfold storeOf
  split <;> simp

/-- The name `tests//./a.c`. -/
theorem safeGeneratedPath_spec_untidy :
    (∃ target, safeGeneratedPath asciiLower (storeOf []) [text "out"] (text "tests//./a.c") =
      .ok target) ↔ SafeName asciiLower (text "tests//./a.c") := by
  have hplain : LinksPlain (storeOf []) := fun key target h =>
    absurd h (storeOf_nil_ne_symlink key target)
  have hroot : resolve (storeOf []) [text "out"] = some [text "out"] := by decide
  have hbelow : NoLinksBelow (storeOf []) [text "out"] := fun _ key _ _ target =>
    storeOf_nil_ne_symlink key target
  exact ((safeGeneratedPath_spec asciiLower hplain hroot).1 hbelow).1 _ rfl

end Icflow.Generate
