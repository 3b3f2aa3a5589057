import Icflow.Generate.Targets

set_option autoImplicit false

/-!
# Whether a failure leaves the output directory alone

`materialize_suite` checks the suite and all paths before it writes, but not that a path
is not also the directory of another one, nor that every text can be encoded: these
failures come in the middle of the write loop.
-/

namespace Icflow.Generate

open Icflow.Foundation

variable (lower : Name → Name) (disk : Disk) (outputDir : Path) (generated : Json Nat)
  (force : Bool)

/-- When it raises, no file below the output directory has been created or changed. -/
def AllOrNothing : Prop :=
  ∀ failure, (materializeSuite lower disk outputDir generated force).2 = .error failure →
    ∀ root rootKey, resolve disk.store outputDir = some root → encodePath root = some rootKey →
      Store.SameFilesBelow rootKey disk.store
        (materializeSuite lower disk outputDir generated force).1

/-- A suite is all or nothing exactly when its write loop is not interrupted after a
change: where a path is obstructed, by a file that an earlier entry has put above it or by
what is on disk, or a text cannot be encoded, nothing written so far differs from what was
there. -/
theorem allOrNothing_iff (lower : Name → Name) (disk : Disk) (outputDir : Path)
    (generated : Json Nat) (force : Bool) :
    AllOrNothing lower disk outputDir generated force ↔
      ∀ fs saves, Accepted lower disk outputDir generated force fs saves →
        ∀ written fault, Store.Interrupted fs saves written fault → ¬ Store.Changes fs written := by
  constructor
  · intro h fs saves haccepted
    obtain ⟨root, rootKey, hprepared, hbelow, hstore, hfails⟩ :=
      materializeSuite_of_accepted haccepted
    rw [← Store.saveAll_atomic_iff hprepared.wellFormed hbelow]
    intro fault hfault
    obtain ⟨failure, hfailure⟩ := hfails.mpr ⟨fault, hfault⟩
    have hsame := h failure hfailure root rootKey hprepared.resolves hprepared.encodes
    rw [hstore] at hsame
    exact (hprepared.sameFilesBelow rootKey).symm.trans hsame
  · intro h failure hfailure root rootKey hroot hkey
    by_cases hrefused : ∀ fs saves, ¬ Accepted lower disk outputDir generated force fs saves
    · exact (materializeSuite_of_refused hrefused).2 rootKey
    · obtain ⟨fs, hfs⟩ := not_forall.mp hrefused
      obtain ⟨saves, hsaves⟩ := not_forall.mp hfs
      have haccepted := not_not.mp hsaves
      obtain ⟨root', rootKey', hprepared, hbelow, hstore, hfails⟩ :=
        materializeSuite_of_accepted haccepted
      obtain rfl := Option.some.inj (hprepared.resolves.symm.trans hroot)
      obtain rfl := Option.some.inj (hprepared.encodes.symm.trans hkey)
      obtain ⟨fault, hfault⟩ := hfails.mp ⟨failure, hfailure⟩
      have hsame := (Store.saveAll_atomic_iff hprepared.wellFormed hbelow).mpr
        (h fs saves haccepted) fault hfault
      rw [hstore]
      exact (hprepared.sameFilesBelow rootKey').trans hsame

/-! ## A file in the place of a directory -/

/-- The files `a` and `a/b`. -/
def fileAndDirectory : Json Nat :=
  suiteValue [] [⟨text "a", text "x"⟩, ⟨text "a/b", text "x"⟩]

/-- `a` is written, and then cannot be a directory. -/
theorem not_allOrNothing_fileAndDirectory :
    ¬ AllOrNothing asciiLower emptyDisk [text "out"] fileAndDirectory false := by
  intro h
  have hraises : (materializeSuite asciiLower emptyDisk [text "out"] fileAndDirectory false).2 =
      .error (.write .osError) := by decide
  have hwritten : (materializeSuite asciiLower emptyDisk [text "out"] fileAndDirectory false).1
      [['o', 'u', 't'], ['a']] = some (.file ['x']) := by decide
  have hroot : resolve emptyDisk.store [text "out"] = some [text "out"] := by decide
  have hkey : encodePath [text "out"] = some [['o', 'u', 't']] := by decide
  have hbefore := (h _ hraises _ _ hroot hkey [['o', 'u', 't'], ['a']] (by decide) ['x']).mp hwritten
  cases hbefore

end Icflow.Generate
