import Icflow.Generate.Rendering

set_option autoImplicit false

/-!
# What `json.loads` returns

A string that is read consists of code points: those of the text, and those that an escape
stands for.  A value read from the code points of a text has no others.
-/

namespace Icflow.Generate

open Icflow.Foundation

/-- All elements are code points. -/
def CodePoints (content : Name) : Prop := ∀ point ∈ content, point < 0x110000

theorem CodePoints.suffix {content rest : Name} (h : CodePoints content) (hrest : rest <:+ content) :
    CodePoints rest :=
  fun point hpoint => h point (hrest.subset hpoint)

theorem CodePoints.append {first second : Name} (h : CodePoints first) (h' : CodePoints second) :
    CodePoints (first ++ second) := List.forall_mem_append.mpr ⟨h, h'⟩

/-- A value whose strings are strings of Python. -/
abbrev PythonValue : Json Nat → Prop := Holds CodePoints fun _ => True

abbrev PythonElements : List (Json Nat) → Prop := HoldsElements CodePoints fun _ => True

abbrev PythonMembers : List (Name × Json Nat) → Prop := HoldsMembers CodePoints fun _ => True

theorem skipBlank_suffix (input : Name) : skipBlank input <:+ input := List.dropWhile_suffix _

/-! ## Strings -/

theorem hexValue_lt {point value : Nat} (h : hexValue point = some value) : value < 16 := by
  unfold hexValue at h
  split at h
  · cases h
    omega
  · split at h
    · cases h
      omega
    · split at h
      · cases h
        omega
      · cases h

theorem hexUnit_spec {input rest : Name} {unit : Nat} (h : hexUnit input = some (unit, rest)) :
    unit < 0x10000 ∧ rest <:+ input := by
  unfold hexUnit at h
  split at h
  · rename_i a b c d more
    split at h
    · rename_i a' b' c' d' ha hb hc hd
      have hfirst := hexValue_lt ha
      have hsecond := hexValue_lt hb
      have hthird := hexValue_lt hc
      have hfourth := hexValue_lt hd
      cases h
      refine ⟨by omega, List.suffix_append [a, b, c, d] rest⟩
    · cases h
  · cases h

theorem unicodeEscape_spec {input rest : Name} {point : Nat}
    (h : unicodeEscape input = some (point, rest)) : point < 0x110000 ∧ rest <:+ input := by
  unfold unicodeEscape at h
  cases hunit : hexUnit input with
  | none =>
      rw [hunit] at h
      cases h
  | some result =>
      obtain ⟨unit, more⟩ := result
      obtain ⟨hbound, hsuffix⟩ := hexUnit_spec hunit
      rw [hunit] at h
      dsimp only at h
      split at h
      · split at h
        · rename_i after
          split at h
          · cases h
          · rename_i low rest' hlow
            obtain ⟨_, hafter⟩ := hexUnit_spec hlow
            split at h
            · obtain ⟨hpoint, rfl⟩ := Prod.mk.inj (Option.some.inj h)
              refine ⟨by omega, hafter.trans (List.IsSuffix.trans ?_ hsuffix)⟩
              exact List.suffix_append [92, 117] after
            · obtain ⟨rfl, rfl⟩ := Prod.mk.inj (Option.some.inj h)
              exact ⟨by omega, hsuffix⟩
        · cases h
          exact ⟨by omega, hsuffix⟩
      · cases h
        exact ⟨by omega, hsuffix⟩

theorem scanEscape_spec {input rest : Name} {point : Nat} (h : scanEscape input = some (point, rest)) :
    point < 0x110000 ∧ rest <:+ input := by
  cases input with
  | nil => cases h
  | cons letter more =>
      rw [scanEscape] at h
      split at h
      · obtain ⟨hbound, hsuffix⟩ := unicodeEscape_spec h
        exact ⟨hbound, hsuffix.trans (List.suffix_cons letter more)⟩
      · rw [Option.map_eq_some_iff] at h
        obtain ⟨other, hlookup, heq⟩ := h
        cases heq
        have hsmall : ∀ entry ∈ backslashEscapes, entry.2 < 0x110000 := by decide
        obtain ⟨before, after, hsplit, _⟩ := List.lookup_eq_some_iff.mp hlookup
        have hmem : (letter, point) ∈ backslashEscapes := by
          rw [hsplit]
          exact List.mem_append_right _ List.mem_cons_self
        exact ⟨hsmall _ hmem, List.suffix_cons letter rest⟩

theorem scanString_spec {fuel : Nat} {input value rest : Name}
    (h : scanString fuel input = some (value, rest)) (hinput : CodePoints input) :
    CodePoints value ∧ rest <:+ input := by
  induction fuel generalizing input value rest with
  | zero => cases h
  | succ fuel ih =>
      cases input with
      | nil => cases h
      | cons point more =>
          obtain ⟨hpoint, hmore⟩ := List.forall_mem_cons.mp hinput
          rw [scanString] at h
          split at h
          · cases h
            exact ⟨List.forall_mem_nil _, List.suffix_cons point rest⟩
          · split at h
            · cases h
            · split at h
              · split at h
                · cases h
                · rename_i other after hescape
                  obtain ⟨hbound, hsuffix⟩ := scanEscape_spec hescape
                  obtain ⟨⟨inner, last⟩, hscan, heq⟩ := Option.map_eq_some_iff.mp h
                  cases heq
                  obtain ⟨hvalue, hlast⟩ := ih hscan (CodePoints.suffix hmore hsuffix)
                  exact ⟨List.forall_mem_cons.mpr ⟨hbound, hvalue⟩,
                    hlast.trans (hsuffix.trans (List.suffix_cons point more))⟩
              · obtain ⟨⟨inner, last⟩, hscan, heq⟩ := Option.map_eq_some_iff.mp h
                cases heq
                obtain ⟨hvalue, hlast⟩ := ih hscan hmore
                exact ⟨List.forall_mem_cons.mpr ⟨hpoint, hvalue⟩,
                  hlast.trans (List.suffix_cons point more)⟩

/-! ## Scalars -/

theorem scanInteger_suffix {input integer rest : Name} (h : scanInteger input = some (integer, rest)) :
    rest <:+ input := by
  cases input with
  | nil => cases h
  | cons point more =>
      rw [scanInteger] at h
      split at h
      · cases h
        exact List.suffix_cons point rest
      · split at h
        · cases h
          exact (List.dropWhile_suffix _).trans (List.suffix_cons point more)
        · cases h

theorem scanFraction_suffix (input : Name) : (scanFraction input).2 <:+ input := by
  unfold scanFraction
  dsimp only
  split
  · exact (List.dropWhile_suffix _).trans (List.tail_suffix input)
  · exact List.suffix_rfl

theorem scanExponent_suffix (input : Name) : (scanExponent input).2 <:+ input := by
  cases input with
  | nil => exact List.suffix_rfl
  | cons letter rest =>
      rw [scanExponent_cons]
      split
      · refine (List.dropWhile_suffix _).trans ((List.drop_suffix _ rest).trans ?_)
        exact List.suffix_cons letter rest
      · exact List.suffix_rfl

theorem scanScalar_spec {input rest : Name} {value : Json Nat}
    (h : scanScalar input = some (value, rest)) : PythonValue value ∧ rest <:+ input := by
  unfold scanScalar at h
  split at h
  · rename_i constant hfind
    cases h
    have hmem := List.mem_of_find?_eq_some hfind
    refine ⟨?_, List.drop_suffix _ _⟩
    simp only [constants, List.mem_cons, List.not_mem_nil, or_false] at hmem
    rcases hmem with rfl | rfl | rfl | rfl | rfl | rfl <;> exact trivial
  · unfold scanNumber at h
    dsimp only at h
    split at h
    · cases h
    · rename_i integer more hinteger
      cases h
      refine ⟨trivial, (scanExponent_suffix _).trans ((scanFraction_suffix _).trans ?_)⟩
      exact (scanInteger_suffix hinteger).trans (List.drop_suffix _ input)

/-! ## Values -/

/-- What one call of the three scanners with this fuel returns. -/
structure ScansPython (fuel : Nat) : Prop where
  once : ∀ {input value rest}, scanOnce fuel input = some (value, rest) → CodePoints input →
    PythonValue value ∧ rest <:+ input
  elements : ∀ {input values rest}, scanElements fuel input = some (values, rest) →
    CodePoints input → PythonElements values ∧ rest <:+ input
  members : ∀ {input values rest}, scanMembers fuel input = some (values, rest) →
    CodePoints input → PythonMembers values ∧ rest <:+ input

section Steps

variable {fuel : Nat} (ih : ScansPython fuel) {input rest : Name}
include ih

theorem scanOnce_spec {value : Json Nat} (h : scanOnce (fuel + 1) input = some (value, rest))
    (hinput : CodePoints input) : PythonValue value ∧ rest <:+ input := by
  cases input with
  | nil =>
      rw [scanOnce] at h
      · cases h
      · intro hfuel
        cases hfuel
  | cons point more =>
      have hmore : CodePoints more := (List.forall_mem_cons.mp hinput).2
      have hblank := skipBlank_suffix more
      have hstep {last : Name} (hlast : last <:+ skipBlank more) : last <:+ point :: more :=
        hlast.trans (hblank.trans (List.suffix_cons point more))
      rw [scanOnce] at h
      split at h
      · obtain ⟨⟨inner, last⟩, hscan, heq⟩ := Option.map_eq_some_iff.mp h
        cases heq
        obtain ⟨hvalue, hlast⟩ := scanString_spec hscan hmore
        exact ⟨hvalue, hlast.trans (List.suffix_cons point more)⟩
      · split at h
        · split at h
          · rename_i after heq
            cases h
            exact ⟨trivial, hstep (heq ▸ List.suffix_cons 125 rest)⟩
          · obtain ⟨⟨inner, last⟩, hscan, heq⟩ := Option.map_eq_some_iff.mp h
            cases heq
            obtain ⟨hvalue, hlast⟩ := ih.members hscan (hmore.suffix hblank)
            exact ⟨hvalue, hstep hlast⟩
        · split at h
          · split at h
            · rename_i after heq
              cases h
              exact ⟨trivial, hstep (heq ▸ List.suffix_cons 93 rest)⟩
            · obtain ⟨⟨inner, last⟩, hscan, heq⟩ := Option.map_eq_some_iff.mp h
              cases heq
              obtain ⟨hvalue, hlast⟩ := ih.elements hscan (hmore.suffix hblank)
              exact ⟨hvalue, hstep hlast⟩
          · exact scanScalar_spec h

theorem scanElements_spec {values : List (Json Nat)}
    (h : scanElements (fuel + 1) input = some (values, rest)) (hinput : CodePoints input) :
    PythonElements values ∧ rest <:+ input := by
  rw [scanElements] at h
  split at h
  · cases h
  · rename_i value after hscan
    obtain ⟨hvalue, hafter⟩ := ih.once hscan hinput
    have hblank := (skipBlank_suffix after).trans hafter
    split at h
    · rename_i more heq
      have hmore : skipBlank more <:+ input :=
        (skipBlank_suffix more).trans ((heq ▸ List.suffix_cons 44 more : more <:+ _).trans hblank)
      obtain ⟨⟨inner, last⟩, hrest, heq'⟩ := Option.map_eq_some_iff.mp h
      cases heq'
      obtain ⟨hvalues, hlast⟩ := ih.elements hrest (hinput.suffix hmore)
      exact ⟨⟨hvalue, hvalues⟩, hlast.trans hmore⟩
    · rename_i more heq
      cases h
      exact ⟨⟨hvalue, trivial⟩, (heq ▸ List.suffix_cons 93 rest : rest <:+ _).trans hblank⟩
    · cases h

theorem scanMembers_spec {values : List (Name × Json Nat)}
    (h : scanMembers (fuel + 1) input = some (values, rest)) (hinput : CodePoints input) :
    PythonMembers values ∧ rest <:+ input := by
  cases input with
  | nil =>
      rw [scanMembers] at h
      · cases h
      · intro _ _ _ hnil
        cases hnil
  | cons quote input =>
      by_cases hquote : quote = 34
      · subst hquote
        have hmore := (List.forall_mem_cons.mp hinput).2
        rw [scanMembers] at h
        split at h
        · cases h
        · rename_i name after hname
          obtain ⟨hpoints, hafter⟩ := scanString_spec hname hmore
          have hcolon := (skipBlank_suffix after).trans (hafter.trans (List.suffix_cons 34 input))
          split at h
          · rename_i inside heq
            have hinside : skipBlank inside <:+ 34 :: input := (skipBlank_suffix inside).trans
              ((heq ▸ List.suffix_cons 58 inside : inside <:+ _).trans hcolon)
            split at h
            · cases h
            · rename_i value behind hvalue
              obtain ⟨hpython, hbehind⟩ := ih.once hvalue (hinput.suffix hinside)
              have hlast := (skipBlank_suffix behind).trans (hbehind.trans hinside)
              split at h
              · rename_i next heq'
                have hnext : skipBlank next <:+ 34 :: input := (skipBlank_suffix next).trans
                  ((heq' ▸ List.suffix_cons 44 next : next <:+ _).trans hlast)
                obtain ⟨⟨others, last⟩, hrest, hpair⟩ := Option.map_eq_some_iff.mp h
                cases hpair
                obtain ⟨hothers, hend⟩ := ih.members hrest (hinput.suffix hnext)
                exact ⟨⟨hpoints, hpython, hothers⟩, hend.trans hnext⟩
              · rename_i next heq'
                cases h
                exact ⟨⟨hpoints, hpython, trivial⟩,
                  (heq' ▸ List.suffix_cons 125 rest : rest <:+ _).trans hlast⟩
              · cases h
          · cases h
      · rw [scanMembers] at h
        · cases h
        · intro _ _ _ heq
          cases heq
          exact hquote rfl

end Steps

theorem scansPython (fuel : Nat) : ScansPython fuel := by
  induction fuel with
  | zero =>
      refine ⟨?_, ?_, ?_⟩
      · intro input value rest h
        rw [scanOnce] at h
        cases h
      · intro input values rest h
        rw [scanElements] at h
        cases h
      · intro input values rest h
        rw [scanMembers] at h
        · cases h
        · intro _ _ hfuel
          cases hfuel
  | succ fuel ih =>
      refine ⟨?_, ?_, ?_⟩
      · intro input value rest h hinput
        exact scanOnce_spec ih h hinput
      · intro input values rest h hinput
        exact scanElements_spec ih h hinput
      · intro input values rest h hinput
        exact scanMembers_spec ih h hinput

/-- `json.loads` of a text is a value of Python. -/
theorem pythonValue_of_loads {input : Name} {value : Json Nat} (hinput : CodePoints input)
    (h : loads input = some value) : PythonValue value := by
  unfold loads at h
  split at h
  · cases h
  · split at h
    · cases h
    · rename_i result rest hscan
      obtain ⟨_, heq⟩ := Option.ite_none_right_eq_some.mp h
      cases heq
      exact ((scansPython _).once hscan (hinput.suffix (skipBlank_suffix input))).1

end Icflow.Generate
