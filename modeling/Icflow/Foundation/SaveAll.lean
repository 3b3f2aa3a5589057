import Icflow.Foundation.FileStore

set_option autoImplicit false

/-!
# What saving a list of files leaves

`saveAll` goes from store to store.  `outcome` says in one step what is there after some
files have been saved, and `Obstructed` which path cannot be saved after which others.
Whether a failure leaves the files as they were is then a condition on the list
(`saveAll_atomic_iff`).
-/

namespace Icflow.Foundation.Store

variable {κ τ : Type} {s s' : Store κ τ} {path upper : List κ}
  {done : List (List κ × List Char)}

/-- A path that cannot be saved after the paths `earlier`: something other than a
directory is above it, or it is not for a file itself. -/
def Obstructed (s : Store κ τ) (earlier : List (List κ)) (path : List κ) : Prop :=
  (∃ upper, Above upper path ∧ (upper ∈ earlier ∨ ¬ Passable s upper)) ∨
    s path = some .directory ∨ (∃ target, s path = some (.symlink target)) ∨
    s path = some .socket ∨ ∃ other ∈ earlier, Above path other

/-- The files can be saved one after the other. -/
inductive Saved (s : Store κ τ) : List (List κ × List Char) → Prop where
  | nil : Saved s []
  | snoc {done : List (List κ × List Char)} {path : List κ} (bytes : List Char) :
      Saved s done → ¬ Obstructed s (done.map Prod.fst) path → Saved s (done ++ [(path, bytes)])

/-- What was saved is for files, in directories. -/
theorem Saved.entry (h : Saved s done) (hpath : path ∈ done.map Prod.fst) :
    s path ≠ some .directory ∧ (∀ target, s path ≠ some (.symlink target)) ∧
      s path ≠ some .socket ∧ ∀ upper, Above upper path → Passable s upper := by
  induction h with
  | nil => cases hpath
  | snoc bytes _ hfree ih =>
      rw [List.map_append, List.mem_append] at hpath
      rcases hpath with hbefore | hlast
      · exact ih hbefore
      · obtain rfl := List.mem_singleton.mp hlast
        refine ⟨fun hdirectory => hfree (Or.inr (Or.inl hdirectory)),
          fun target hlink => hfree (Or.inr (Or.inr (Or.inl ⟨target, hlink⟩))),
          fun hsocket => hfree (Or.inr (Or.inr (Or.inr (Or.inl hsocket)))), ?_⟩
        intro upper hupper
        by_contra hblocked
        exact hfree (Or.inl ⟨upper, hupper, Or.inr hblocked⟩)

/-- What was saved is not above anything that was saved. -/
theorem Saved.not_above (h : Saved s done) (hupper : upper ∈ done.map Prod.fst)
    (hpath : path ∈ done.map Prod.fst) : ¬ Above upper path := by
  induction h with
  | nil => cases hpath
  | snoc bytes _ hfree ih =>
      rw [List.map_append, List.mem_append] at hupper hpath
      intro habove
      rcases hupper with hupper | hupper <;> rcases hpath with hpath | hpath
      · exact ih hupper hpath habove
      · obtain rfl := List.mem_singleton.mp hpath
        exact hfree (Or.inl ⟨upper, habove, Or.inl hupper⟩)
      · obtain rfl := List.mem_singleton.mp hupper
        exact hfree (Or.inr (Or.inr (Or.inr (Or.inr ⟨path, hpath, habove⟩))))
      · rw [List.mem_singleton.mp hupper, List.mem_singleton.mp hpath] at habove
        exact habove.2 rfl

theorem Obstructed.mono {earlier : List (List κ)} (h : Obstructed s [] path) :
    Obstructed s earlier path := by
  rcases h with ⟨upper, hupper, hmem | hblocked⟩ | hdirectory | hlink | hsocket |
    ⟨other, hother, _⟩
  · cases hmem
  · exact Or.inl ⟨upper, hupper, Or.inr hblocked⟩
  · exact Or.inr (Or.inl hdirectory)
  · exact Or.inr (Or.inr (Or.inl hlink))
  · exact Or.inr (Or.inr (Or.inr (Or.inl hsocket)))
  · cases hother

/-- What was saved could have been saved on its own. -/
theorem Saved.free (h : Saved s done) (hpath : path ∈ done.map Prod.fst) :
    ¬ Obstructed s [] path := by
  induction h with
  | nil => cases hpath
  | snoc bytes _ hfree ih =>
      rw [List.map_append, List.mem_append] at hpath
      rcases hpath with hbefore | hlast
      · exact ih hbefore
      · rw [List.mem_singleton.mp hlast]
        exact fun hobstructed => hfree hobstructed.mono

theorem ne_nil_of_free (hs : WellFormed s) {earlier : List (List κ)}
    (hfree : ¬ Obstructed s earlier path) : path ≠ [] := by
  rintro rfl
  exact hfree (Or.inr (Or.inl hs.root))

/-- A file that is there is not obstructed. -/
theorem free_of_file (hs : WellFormed s) {bytes : List Char} (h : s path = some (.file bytes)) :
    ¬ Obstructed s [] path := by
  have hsome : s path ≠ none := by
    rw [h]
    exact Option.some_ne_none _
  rintro (⟨upper, hupper, hmem | hblocked⟩ | hdirectory | ⟨target, hlink⟩ | hsocket |
    ⟨other, hmem, _⟩)
  · cases hmem
  · exact hblocked (Or.inr (hs.above hsome hupper))
  · rw [h] at hdirectory
    cases hdirectory
  · rw [h] at hlink
    cases hlink
  · rw [h] at hsocket
    cases hsocket
  · cases hmem

/-- Files with texts that could be encoded. -/
def encoded (done : List (List κ × List Char)) : List (List κ × Option (List Char)) :=
  done.map fun entry => (entry.1, some entry.2)

/-- Saving stops: `written` is what has been written by then. -/
inductive Interrupted (s : Store κ τ) (entries : List (List κ × Option (List Char))) :
    List (List κ × List Char) → WriteFault → Prop where
  | obstructed (before : List (List κ × List Char)) (path : List κ) (content : Option (List Char))
      (after : List (List κ × Option (List Char))) :
      entries = encoded before ++ (path, content) :: after → Saved s before →
      Obstructed s (before.map Prod.fst) path → Interrupted s entries before .osError
  | unencodable (before : List (List κ × List Char)) (path : List κ)
      (after : List (List κ × Option (List Char))) :
      entries = encoded before ++ (path, none) :: after → Saved s before →
      ¬ Obstructed s (before.map Prod.fst) path →
      Interrupted s entries (before ++ [(path, [])]) .encodeError

/-- A run saves everything or is interrupted. -/
theorem saved_or_interrupted (s : Store κ τ) (entries : List (List κ × Option (List Char))) :
    (∃ done, entries = encoded done ∧ Saved s done) ∨
      ∃ written fault, Interrupted s entries written fault := by
  suffices hfrom : ∀ (rest : List (List κ × Option (List Char))) (done : List (List κ × List Char)),
      entries = encoded done ++ rest → Saved s done →
        (∃ done, entries = encoded done ∧ Saved s done) ∨
          ∃ written fault, Interrupted s entries written fault from
    hfrom entries [] rfl .nil
  intro rest
  induction rest with
  | nil =>
      intro done hentries hdone
      rw [List.append_nil] at hentries
      exact Or.inl ⟨done, hentries, hdone⟩
  | cons entry rest ih =>
      intro done hentries hdone
      obtain ⟨path, content⟩ := entry
      by_cases hobstructed : Obstructed s (done.map Prod.fst) path
      · exact Or.inr ⟨_, _, .obstructed done path content rest hentries hdone hobstructed⟩
      · cases content with
        | none => exact Or.inr ⟨_, _, .unencodable done path rest hentries hdone hobstructed⟩
        | some bytes =>
            refine ih (done ++ [(path, bytes)]) ?_ (.snoc bytes hdone hobstructed)
            rw [hentries, encoded, encoded, List.map_append, List.append_assoc]
            rfl

/-- Two stores with the same files below a directory. -/
def SameFilesBelow (root : List κ) (s s' : Store κ τ) : Prop :=
  ∀ path, root <+: path → ∀ bytes, s' path = some (.file bytes) ↔ s path = some (.file bytes)

theorem SameFilesBelow.symm {root : List κ} (h : SameFilesBelow root s s') :
    SameFilesBelow root s' s := fun path hroot bytes => (h path hroot bytes).symm

theorem SameFilesBelow.trans {root : List κ} {s'' : Store κ τ} (h : SameFilesBelow root s s')
    (h' : SameFilesBelow root s' s'') : SameFilesBelow root s s'' :=
  fun path hroot bytes => (h' path hroot bytes).trans (h path hroot bytes)

/-! ## Reading an outcome -/

section Outcome

variable [DecidableEq κ]

/-- The bytes last written to a path. -/
def lastWrite (done : List (List κ × List Char)) (path : List κ) : Option (List Char) :=
  done.reverse.lookup path

/-- The store after some files have been saved. -/
def outcome (s : Store κ τ) (done : List (List κ × List Char)) : Store κ τ := fun path =>
  match s path with
  | some (.file bytes) => some (.file ((lastWrite done path).getD bytes))
  | some node => some node
  | none =>
      match lastWrite done path with
      | some bytes => some (.file bytes)
      | none => if done.any fun entry => decide (Above path entry.1) then some .directory else none

@[simp] theorem lastWrite_nil : lastWrite ([] : List (List κ × List Char)) path = none := rfl

theorem lastWrite_concat (done : List (List κ × List Char)) (path other : List κ)
    (bytes : List Char) :
    lastWrite (done ++ [(path, bytes)]) other =
      if other = path then some bytes else lastWrite done other := by
  rw [lastWrite, List.reverse_append, List.reverse_singleton, List.singleton_append,
    List.lookup_cons]
  by_cases heq : other = path
  · rw [if_pos heq, beq_iff_eq.mpr heq]
  · rw [if_neg heq, beq_eq_false_iff_ne.mpr heq, lastWrite]

theorem mem_of_lastWrite {bytes : List Char} (h : lastWrite done path = some bytes) :
    (path, bytes) ∈ done := by
  induction done using List.reverseRecOn with
  | nil => cases h
  | append_singleton done entry ih =>
      rw [lastWrite_concat] at h
      by_cases heq : path = entry.1
      · rw [if_pos heq] at h
        cases h
        rw [heq]
        exact List.mem_append_right _ List.mem_cons_self
      · rw [if_neg heq] at h
        exact List.mem_append_left _ (ih h)

theorem lastWrite_eq_none (h : path ∉ done.map Prod.fst) : lastWrite done path = none := by
  cases hlast : lastWrite done path with
  | none => rfl
  | some bytes => exact absurd (List.mem_map_of_mem (mem_of_lastWrite hlast)) h

theorem lastWrite_isSome (h : path ∈ done.map Prod.fst) : (lastWrite done path).isSome = true := by
  induction done using List.reverseRecOn with
  | nil => cases h
  | append_singleton done entry ih =>
      rw [lastWrite_concat]
      by_cases heq : path = entry.1
      · rw [if_pos heq]
        rfl
      · rw [if_neg heq]
        rw [List.map_append, List.mem_append] at h
        refine ih (h.resolve_right ?_)
        intro hmem
        exact heq (List.mem_singleton.mp hmem)

/-- A path that is written once has what was written there. -/
theorem lastWrite_of_nodup (hnodup : (done.map Prod.fst).Nodup) {bytes : List Char}
    (h : (path, bytes) ∈ done) : lastWrite done path = some bytes := by
  induction done using List.reverseRecOn with
  | nil => cases h
  | append_singleton done entry ih =>
      rw [List.map_append, List.nodup_append] at hnodup
      obtain ⟨hbefore, _, happart⟩ := hnodup
      rw [lastWrite_concat]
      rcases List.mem_append.mp h with hdone | hlast
      · have hne : path ≠ entry.1 :=
          happart path (List.mem_map_of_mem hdone) entry.1 List.mem_cons_self
        rw [if_neg hne]
        exact ih hbefore hdone
      · obtain rfl := List.mem_singleton.mp hlast
        exact if_pos rfl

@[simp] theorem outcome_nil (s : Store κ τ) : outcome s [] = s := by
  funext path
  unfold outcome
  cases hnode : s path with
  | none => rfl
  | some node => cases node <;> rfl

theorem outcome_of_directory (h : s path = some .directory) :
    outcome s done path = some .directory := by rw [outcome, h]

theorem outcome_of_symlink {target : τ} (h : s path = some (.symlink target)) :
    outcome s done path = some (.symlink target) := by rw [outcome, h]

theorem outcome_of_special (h : s path = some .special) :
    outcome s done path = some .special := by rw [outcome, h]

theorem outcome_of_socket (h : s path = some .socket) :
    outcome s done path = some .socket := by rw [outcome, h]

theorem outcome_of_file {bytes : List Char} (h : s path = some (.file bytes)) :
    outcome s done path = some (.file ((lastWrite done path).getD bytes)) := by rw [outcome, h]

theorem outcome_of_new {bytes : List Char} (h : s path = none)
    (hlast : lastWrite done path = some bytes) :
    outcome s done path = some (.file bytes) := by rw [outcome, h, hlast]

theorem outcome_of_made (h : s path = none) (hlast : lastWrite done path = none) :
    outcome s done path =
      if done.any fun entry => decide (Above path entry.1) then some .directory else none := by
  rw [outcome, h, hlast]

/-- The files of an outcome. -/
theorem outcome_eq_file_iff {bytes : List Char} :
    outcome s done path = some (.file bytes) ↔
      (s path = none ∧ lastWrite done path = some bytes) ∨
        ∃ old, s path = some (.file old) ∧ (lastWrite done path).getD old = bytes := by
  cases hnode : s path with
  | none =>
      cases hlast : lastWrite done path with
      | none =>
          rw [outcome_of_made hnode hlast]
          split <;> simp
      | some written => simp [outcome_of_new hnode hlast]
  | some node =>
      cases node with
      | file old => simp [outcome_of_file hnode]
      | directory => simp [outcome_of_directory hnode]
      | symlink target => simp [outcome_of_symlink hnode]
      | special => simp [outcome_of_special hnode]
      | socket => simp [outcome_of_socket hnode]

/-! ## The outcome as a store -/

/-- Whatever is above a saved file is a directory afterwards. -/
theorem Saved.outcome_above (h : Saved s done) (hpath : path ∈ done.map Prod.fst)
    (hupper : Above upper path) : outcome s done upper = some .directory := by
  rcases (h.entry hpath).2.2.2 upper hupper with hnone | hdirectory
  · have hnew : upper ∉ done.map Prod.fst := fun hmem => h.not_above hmem hpath hupper
    rw [outcome_of_made hnone (lastWrite_eq_none hnew)]
    obtain ⟨entry, hentry, rfl⟩ := List.mem_map.mp hpath
    exact if_pos (List.any_eq_true.mpr ⟨entry, hentry, decide_eq_true hupper⟩)
  · exact outcome_of_directory hdirectory

/-- Files written at different paths hold what was written, unless there was something
before that a write leaves as it is. -/
theorem Saved.outcome_eq_file_iff (h : Saved s done) (hnodup : (done.map Prod.fst).Nodup)
    {bytes : List Char} (hmem : (path, bytes) ∈ done) :
    outcome s done path = some (.file bytes) ↔ s path ≠ some .special := by
  have hlast := lastWrite_of_nodup hnodup hmem
  obtain ⟨hdirectory, hlink, hsocket, _⟩ := h.entry (List.mem_map_of_mem hmem)
  cases hnode : s path with
  | none => simp [outcome_of_new hnode hlast]
  | some node =>
      cases node with
      | file old => simp [outcome_of_file hnode, hlast]
      | directory => exact absurd hnode hdirectory
      | symlink target => exact absurd hnode (hlink target)
      | special => simp [outcome_of_special hnode]
      | socket => exact absurd hnode hsocket

/-- An outcome is well-formed. -/
theorem Saved.wellFormed (h : Saved s done) (hs : WellFormed s) : WellFormed (outcome s done) where
  root := outcome_of_directory hs.root
  parent := by
    intro upper name hsome
    by_cases hold : s (upper ++ [name]) = none
    · cases hlast : lastWrite done (upper ++ [name]) with
      | some bytes =>
          exact h.outcome_above (List.mem_map_of_mem (mem_of_lastWrite hlast))
            (above_concat.mpr (List.prefix_refl upper))
      | none =>
          rw [outcome_of_made hold hlast] at hsome
          split at hsome
          · rename_i hany
            obtain ⟨entry, hentry, habove⟩ := List.any_eq_true.mp hany
            exact h.outcome_above (List.mem_map_of_mem hentry)
              (above_of_above_concat (of_decide_eq_true habove))
          · exact absurd rfl hsome
    · exact outcome_of_directory (hs.parent upper name hold)

/-- The directories of an outcome. -/
theorem Saved.outcome_eq_directory_iff (h : Saved s done) :
    outcome s done upper = some .directory ↔
      s upper = some .directory ∨ ∃ entry ∈ done, Above upper entry.1 := by
  constructor
  · intro hnow
    cases hold : s upper with
    | none =>
        cases hwritten : lastWrite done upper with
        | some bytes =>
            rw [outcome_of_new hold hwritten] at hnow
            cases hnow
        | none =>
            rw [outcome_of_made hold hwritten] at hnow
            by_cases hmade : done.any (fun entry => decide (Above upper entry.1)) = true
            · obtain ⟨entry, hentry, habove⟩ := List.any_eq_true.mp hmade
              exact Or.inr ⟨entry, hentry, of_decide_eq_true habove⟩
            · rw [if_neg hmade] at hnow
              cases hnow
    | some node =>
        cases node with
        | directory => exact Or.inl rfl
        | file bytes =>
            rw [outcome_of_file hold] at hnow
            cases hnow
        | symlink target =>
            rw [outcome_of_symlink hold] at hnow
            cases hnow
        | special =>
            rw [outcome_of_special hold] at hnow
            cases hnow
        | socket =>
            rw [outcome_of_socket hold] at hnow
            cases hnow
  · rintro (hold | ⟨entry, hentry, habove⟩)
    · exact outcome_of_directory hold
    · exact h.outcome_above (List.mem_map_of_mem hentry) habove

/-- What can be opened after some files have been saved: what could be before, and what
is in a directory that has been made for one of them. -/
theorem Saved.openable_outcome_iff (h : Saved s done) (hpath : path ≠ []) :
    Openable (outcome s done) path ↔
      (∃ bytes, s path = some (.file bytes)) ∨ s path = some .special ∨
        s path = none ∧ (∀ entry ∈ done, ¬ Above path entry.1) ∧
          (s path.dropLast = some .directory ∨ ∃ entry ∈ done, Above path.dropLast entry.1) := by
  have hparent : Above path.dropLast path := (above_iff_prefix_dropLast hpath).mpr
    (List.prefix_refl _)
  cases hnode : s path with
  | some node =>
      cases node <;>
        simp [Openable, outcome_of_file, outcome_of_directory, outcome_of_symlink,
          outcome_of_special, outcome_of_socket, hnode]
  | none =>
      cases hlast : lastWrite done path with
      | some bytes =>
          -- the file itself has been saved
          have hentry := mem_of_lastWrite hlast
          have hkey : path ∈ done.map Prod.fst := List.mem_map_of_mem hentry
          refine iff_of_true (Or.inl ⟨bytes, outcome_of_new hnode hlast⟩)
            (Or.inr (Or.inr ⟨rfl, ?_, Or.inr ⟨_, hentry, hparent⟩⟩))
          intro entry hentry habove
          exact h.not_above hkey (List.mem_map_of_mem hentry) habove
      | none =>
          by_cases hany : ∃ entry ∈ done, Above path entry.1
          · have hdirectory := h.outcome_eq_directory_iff.mpr (Or.inr hany)
            refine iff_of_false ?_ ?_
            · simp [Openable, hdirectory]
            · intro hopen
              rcases hopen with ⟨bytes, hfile⟩ | hspecial | ⟨_, hall, _⟩
              · cases hfile
              · cases hspecial
              · obtain ⟨entry, hentry, habove⟩ := hany
                exact hall entry hentry habove
          · have hnone : outcome s done path = none := by
              rw [outcome_of_made hnode hlast]
              refine if_neg fun hsome => ?_
              obtain ⟨entry, hentry, habove⟩ := List.any_eq_true.mp hsome
              exact hany ⟨entry, hentry, of_decide_eq_true habove⟩
            have hall : ∀ entry ∈ done, ¬ Above path entry.1 := by
              intro entry hentry habove
              exact hany ⟨entry, hentry, habove⟩
            rw [Openable, hnone, h.outcome_eq_directory_iff]
            simp only [reduceCtorEq, exists_false, false_or, true_and]
            exact ⟨fun hopen => ⟨hall, hopen⟩, fun hopen => hopen.2⟩

/-! ## One more file -/

theorem passable_outcome (hfree : ¬ Obstructed s (done.map Prod.fst) path)
    (hupper : Above upper path) : Passable (outcome s done) upper := by
  have hnew : upper ∉ done.map Prod.fst := fun hmem =>
    hfree (Or.inl ⟨upper, hupper, Or.inl hmem⟩)
  have hold : Passable s upper := by
    by_contra hblocked
    exact hfree (Or.inl ⟨upper, hupper, Or.inr hblocked⟩)
  rcases hold with hnone | hdirectory
  · rw [Passable, outcome_of_made hnone (lastWrite_eq_none hnew)]
    split
    · exact Or.inr rfl
    · exact Or.inl rfl
  · exact Or.inr (outcome_of_directory hdirectory)

/-- The outcome with one more file differs at that file and in its directories. -/
theorem outcome_concat_of_ne {bytes : List Char} {other : List κ} (hother : other ≠ path) :
    outcome s (done ++ [(path, bytes)]) other =
      if Above other path ∧ outcome s done other = none then some .directory
      else outcome s done other := by
  have hlast : lastWrite (done ++ [(path, bytes)]) other = lastWrite done other := by
    rw [lastWrite_concat, if_neg hother]
  cases hnode : s other with
  | some node =>
      have hsome : outcome s done other ≠ none := by
        cases node <;> simp [outcome, hnode]
      rw [if_neg fun h => hsome h.2]
      cases node <;> simp [outcome, hnode, hlast]
  | none =>
      cases hwritten : lastWrite done other with
      | some written =>
          rw [outcome_of_new hnode hwritten, outcome_of_new hnode (hlast.trans hwritten)]
          rw [if_neg fun h => Option.some_ne_none _ h.2]
      | none =>
          rw [outcome_of_made hnode hwritten, outcome_of_made hnode (hlast.trans hwritten),
            List.any_append]
          by_cases hany : done.any (fun entry => decide (Above other entry.1)) = true
          · simp [hany]
          · by_cases habove : Above other path <;> simp [hany, habove]

/-- No file is where directories are made. -/
theorem sameFilesBelow_withDirectories (root : List κ)
    (hclear : ∀ upper, upper <+: path → Passable s upper) :
    SameFilesBelow root s (withDirectories s path) := by
  intro other _ bytes
  by_cases hother : other <+: path
  · rw [withDirectories_upper hother]
    rcases hclear other hother with hnone | hdirectory
    · simp [hnone]
    · simp [hdirectory]
  · rw [withDirectories_other hother]

/-- The directories of a file that can be saved. -/
theorem mkdir_outcome (hs : WellFormed s) (h : Saved s done)
    (hpassable : ∀ upper, Above upper path → Passable (outcome s done) upper) :
    mkdir (outcome s done) path.dropLast =
      some (withDirectories (outcome s done) path.dropLast) := by
  refine mkdir_of_passable (h.wellFormed hs) ?_
  intro upper hupper
  by_cases hpath : path = []
  · subst hpath
    rw [List.prefix_nil.mp hupper]
    exact Or.inr (h.wellFormed hs).root
  · exact hpassable upper ((above_iff_prefix_dropLast hpath).mpr hupper)

/-- Elsewhere the directories are all that saving a file changes. -/
theorem withDirectories_outcome_of_ne (hpath : path ≠ [])
    (hfree : ¬ Obstructed s (done.map Prod.fst) path) (bytes : List Char) {other : List κ}
    (hother : other ≠ path) :
    withDirectories (outcome s done) path.dropLast other =
      outcome s (done ++ [(path, bytes)]) other := by
  rw [outcome_concat_of_ne hother]
  by_cases habove : Above other path
  · rw [withDirectories_upper habove.prefix_dropLast]
    rcases passable_outcome hfree habove with hnone | hdirectory
    · rw [if_pos ⟨habove, hnone⟩]
    · rw [if_neg fun h => Option.some_ne_none _ (hdirectory.symm.trans h.2), hdirectory]
  · rw [if_neg fun h => habove h.1]
    exact withDirectories_other fun hprefix =>
      habove ((above_iff_prefix_dropLast hpath).mpr hprefix)

/-- A file that is not obstructed is saved; when its text cannot be encoded it is left
empty. -/
theorem save_of_free (hs : WellFormed s) (h : Saved s done)
    (hfree : ¬ Obstructed s (done.map Prod.fst) path) (content : Option (List Char)) :
    save (outcome s done) path content =
      (outcome s (done ++ [(path, content.getD [])]), saveResult content) := by
  have hpath := ne_nil_of_free hs hfree
  have hmkdir := mkdir_outcome hs h fun upper hupper => passable_outcome hfree hupper
  rw [save, hmkdir]
  have hself : withDirectories (outcome s done) path.dropLast path = outcome s done path :=
    withDirectories_other (not_prefix_dropLast hpath)
  have hother := fun (bytes : List Char) (other : List κ) (hne : other ≠ path) =>
    withDirectories_outcome_of_ne hpath hfree bytes hne
  have hopened : ∀ bytes,
      outcome s (done ++ [(path, bytes)]) path = some (.file bytes) →
        Function.update (withDirectories (outcome s done) path.dropLast) path
          (some (.file bytes)) = outcome s (done ++ [(path, bytes)]) := by
    intro bytes hwritten
    funext other
    by_cases hne : other = path
    · rw [hne, Function.update_self, hwritten]
    · rw [Function.update_of_ne hne]
      exact hother bytes other hne
  have hlast : lastWrite (done ++ [(path, content.getD [])]) path = some (content.getD []) := by
    rw [lastWrite_concat, if_pos rfl]
  dsimp only
  cases hnode : s path with
  | none =>
      have hnew : outcome s (done ++ [(path, content.getD [])]) path =
          some (.file (content.getD [])) := outcome_of_new hnode hlast
      cases hwritten : lastWrite done path with
      | some bytes =>
          rw [write_of_file (hself.trans (outcome_of_new hnode hwritten))]
          exact (put_eq _ _ _).trans (by rw [hopened _ hnew])
      | none =>
          have hnone : outcome s done path = none := by
            rw [outcome_of_made hnode hwritten]
            refine if_neg fun hany => ?_
            obtain ⟨entry, hentry, habove⟩ := List.any_eq_true.mp hany
            exact hfree (Or.inr (Or.inr (Or.inr (Or.inr
              ⟨entry.1, List.mem_map_of_mem hentry, of_decide_eq_true habove⟩))))
          have hparent : withDirectories (outcome s done) path.dropLast path.dropLast =
              some .directory := withDirectories_upper (List.prefix_refl _)
          rw [write_of_new (hself.trans hnone) hparent]
          exact (put_eq _ _ _).trans (by rw [hopened _ hnew])
  | some node =>
      cases node with
      | directory => exact absurd (Or.inr (Or.inl hnode)) hfree
      | symlink target => exact absurd (Or.inr (Or.inr (Or.inl ⟨target, hnode⟩))) hfree
      | socket => exact absurd (Or.inr (Or.inr (Or.inr (Or.inl hnode)))) hfree
      | file old =>
          have hnew : outcome s (done ++ [(path, content.getD [])]) path =
              some (.file (content.getD [])) := by
            rw [outcome_of_file hnode, hlast, Option.getD_some]
          rw [write_of_file (hself.trans (outcome_of_file hnode))]
          exact (put_eq _ _ _).trans (by rw [hopened _ hnew])
      | special =>
          have hsame : withDirectories (outcome s done) path.dropLast =
              outcome s (done ++ [(path, content.getD [])]) := by
            funext other
            by_cases hne : other = path
            · rw [hne, hself, outcome_of_special hnode, outcome_of_special hnode]
            · exact hother _ other hne
          rw [write_of_special (hself.trans (outcome_of_special hnode)), ← hsame]

/-- Something other than a directory stays in the way. -/
theorem Saved.not_passable (h : Saved s done)
    (hupper : upper ∈ done.map Prod.fst ∨ ¬ Passable s upper) :
    ¬ Passable (outcome s done) upper := by
  cases hnode : s upper with
  | none =>
      have hmem : upper ∈ done.map Prod.fst := hupper.resolve_right fun hnot => hnot (Or.inl hnode)
      obtain ⟨bytes, hlast⟩ := Option.isSome_iff_exists.mp (lastWrite_isSome hmem)
      simp [Passable, outcome_of_new hnode hlast]
  | some node =>
      cases node with
      | file old => simp [Passable, outcome_of_file hnode]
      | symlink target => simp [Passable, outcome_of_symlink hnode]
      | special => simp [Passable, outcome_of_special hnode]
      | socket => simp [Passable, outcome_of_socket hnode]
      | directory =>
          have hmem : upper ∈ done.map Prod.fst := hupper.resolve_right fun hnot => hnot (Or.inr hnode)
          exact absurd hnode (h.entry hmem).1

/-- An obstructed file is not saved, and all files stay as they are. -/
theorem save_of_obstructed (hs : WellFormed s) (h : Saved s done)
    (hobstructed : Obstructed s (done.map Prod.fst) path) (content : Option (List Char)) :
    (save (outcome s done) path content).2 = .error .osError ∧
      ∀ root, SameFilesBelow root (outcome s done) (save (outcome s done) path content).1 := by
  by_cases hpassable : ∀ upper, Above upper path → Passable (outcome s done) upper
  · have hnode : outcome s done path = some .directory ∨
        (∃ target, outcome s done path = some (.symlink target)) ∨
          outcome s done path = some .socket := by
      rcases hobstructed with ⟨upper, hupper, hblocked⟩ | hdirectory | ⟨target, hlink⟩ |
        hsocket | ⟨other, hother, habove⟩
      · exact absurd (hpassable upper hupper) (h.not_passable hblocked)
      · exact Or.inl (outcome_of_directory hdirectory)
      · exact Or.inr (Or.inl ⟨target, outcome_of_symlink hlink⟩)
      · exact Or.inr (Or.inr (outcome_of_socket hsocket))
      · exact Or.inl (h.outcome_above hother habove)
    have hself : withDirectories (outcome s done) path.dropLast path = outcome s done path := by
      by_cases hpath : path = []
      · subst hpath
        rw [(h.wellFormed hs).root]
        exact withDirectories_upper (List.prefix_refl _)
      · exact withDirectories_other (not_prefix_dropLast hpath)
    have hwrite : write (withDirectories (outcome s done) path.dropLast) path content =
        (withDirectories (outcome s done) path.dropLast, .error .osError) := by
      rcases hnode with hdirectory | ⟨target, hlink⟩ | hsocket
      · exact write_of_directory (hself.trans hdirectory) content
      · exact write_of_symlink (hself.trans hlink) content
      · exact write_of_socket (hself.trans hsocket) content
    rw [save, mkdir_outcome hs h hpassable]
    dsimp only
    rw [hwrite]
    refine ⟨rfl, fun root => sameFilesBelow_withDirectories root ?_⟩
    intro upper hupper
    by_cases hpath : path = []
    · subst hpath
      rw [List.prefix_nil.mp hupper]
      exact Or.inr (h.wellFormed hs).root
    · exact hpassable upper ((above_iff_prefix_dropLast hpath).mpr hupper)
  · rw [not_forall] at hpassable
    obtain ⟨upper, hupper⟩ := hpassable
    rw [Classical.not_imp] at hupper
    have hnone := mkdir_of_blocked (h.wellFormed hs) hupper.1.prefix_dropLast hupper.2
    rw [save, hnone]
    exact ⟨rfl, fun root path _ bytes => Iff.rfl⟩

/-! ## The whole list -/

variable {entries : List (List κ × Option (List Char))}

theorem saveAll_append (s : Store κ τ) (first second : List (List κ × Option (List Char))) :
    saveAll s (first ++ second) =
      match saveAll s first with
      | (s', .error fault) => (s', .error fault)
      | (s', .ok ()) => saveAll s' second := by
  induction first generalizing s with
  | nil => rfl
  | cons entry rest ih =>
      obtain ⟨path, content⟩ := entry
      rw [List.cons_append, saveAll, saveAll]
      cases save s path content with
      | mk s' result =>
          cases result with
          | error fault => rfl
          | ok _ => exact ih s'

theorem Saved.saveAll (hs : WellFormed s) (h : Saved s done) :
    saveAll s (encoded done) = (outcome s done, .ok ()) := by
  induction h with
  | nil => rw [outcome_nil]; rfl
  | snoc bytes hdone hfree ih =>
      rw [encoded, List.map_append, saveAll_append, ← encoded, ih]
      have hlast := save_of_free hs hdone hfree (some bytes)
      simp only [List.map_cons, List.map_nil, Store.saveAll, hlast, saveResult, Option.getD_some]

/-- What was saved is all that is touched. -/
theorem Saved.touches (hs : WellFormed s) (h : Saved s done) :
    Touches {path | path ∈ done.map Prod.fst} s (outcome s done) := by
  have hentries : ∀ entry ∈ encoded done, entry.1 ∈ {path | path ∈ done.map Prod.fst} := by
    rw [encoded, List.forall_mem_map]
    exact fun entry hentry => List.mem_map.mpr ⟨entry, hentry, rfl⟩
  have htouches := (saveAll_frame hs hentries).2
  rwa [h.saveAll hs] at htouches

/-- How an interrupted run ends. -/
theorem Interrupted.saveAll (hs : WellFormed s) {written : List (List κ × List Char)}
    {fault : WriteFault} (h : Interrupted s entries written fault) :
    (saveAll s entries).2 = .error fault ∧
      ∀ root, SameFilesBelow root (outcome s written) (saveAll s entries).1 := by
  cases h with
  | obstructed before path content after hentries hsaved hobstructed =>
      obtain ⟨hfault, hsame⟩ := save_of_obstructed hs hsaved hobstructed content
      rw [hentries, saveAll_append, hsaved.saveAll hs]
      dsimp only
      rw [Store.saveAll]
      cases hsave : save (outcome s written) path content with
      | mk s' result =>
          rw [hsave] at hfault hsame
          obtain rfl : result = .error .osError := hfault
          exact ⟨rfl, hsame⟩
  | unencodable before path after hentries hsaved hfree =>
      rw [hentries, saveAll_append, hsaved.saveAll hs]
      dsimp only
      rw [Store.saveAll, save_of_free hs hsaved hfree none]
      exact ⟨rfl, fun root path _ bytes => Iff.rfl⟩

/-- Some file is new, or has got other bytes. -/
def Changes (s : Store κ τ) (written : List (List κ × List Char)) : Prop :=
  ∃ path bytes, lastWrite written path = some bytes ∧
    (s path = none ∨ ∃ old, s path = some (.file old) ∧ old ≠ bytes)

theorem sameFilesBelow_outcome_iff {root : List κ} {written : List (List κ × List Char)}
    (hbelow : ∀ entry ∈ written, root <+: entry.1) :
    SameFilesBelow root s (outcome s written) ↔ ¬ Changes s written := by
  constructor
  · rintro hsame ⟨path, bytes, hlast, hchanged⟩
    have hroot := hbelow _ (mem_of_lastWrite hlast)
    have hnow : outcome s written path = some (.file bytes) := by
      rcases hchanged with hnone | ⟨old, hold, _⟩
      · exact outcome_of_new hnone hlast
      · rw [outcome_of_file hold, hlast, Option.getD_some]
    have hbefore := (hsame path hroot bytes).mp hnow
    rcases hchanged with hnone | ⟨old, hold, hne⟩
    · rw [hnone] at hbefore
      cases hbefore
    · rw [hold] at hbefore
      cases hbefore
      exact hne rfl
  · intro hunchanged path _ bytes
    rw [outcome_eq_file_iff]
    constructor
    · rintro (⟨hnone, hlast⟩ | ⟨old, hold, hbytes⟩)
      · exact absurd ⟨path, bytes, hlast, Or.inl hnone⟩ hunchanged
      · cases hlast : lastWrite written path with
        | none =>
            rw [hlast, Option.getD_none] at hbytes
            rw [hold, hbytes]
        | some new =>
            by_contra hne
            rw [hlast, Option.getD_some] at hbytes
            refine hunchanged ⟨path, new, hlast, Or.inr ⟨old, hold, ?_⟩⟩
            rintro rfl
            rw [hbytes] at hold
            exact hne hold
    · intro hold
      refine Or.inr ⟨bytes, hold, ?_⟩
      cases hlast : lastWrite written path with
      | none => rfl
      | some new =>
          by_contra hne
          refine hunchanged ⟨path, new, hlast, Or.inr ⟨bytes, hold, ?_⟩⟩
          intro heq
          exact hne heq.symm

/-- A failure leaves the files as they were, exactly when nothing that was written before
it has changed a file. -/
theorem saveAll_atomic_iff (hs : WellFormed s) {root : List κ}
    (hbelow : ∀ entry ∈ entries, root <+: entry.1) :
    (∀ fault, (saveAll s entries).2 = .error fault →
      SameFilesBelow root s (saveAll s entries).1) ↔
      ∀ written fault, Interrupted s entries written fault → ¬ Changes s written := by
  have hwritten : ∀ written fault, Interrupted s entries written fault →
      ∀ entry ∈ written, root <+: entry.1 := by
    intro written fault h entry hentry
    cases h with
    | obstructed before path content after hentries _ _ =>
        refine hbelow (entry.1, some entry.2) ?_
        rw [hentries]
        exact List.mem_append_left _ (List.mem_map_of_mem hentry)
    | unencodable before path after hentries _ _ =>
        rcases List.mem_append.mp hentry with hbefore | hlast
        · refine hbelow (entry.1, some entry.2) ?_
          rw [hentries]
          exact List.mem_append_left _ (List.mem_map_of_mem hbefore)
        · rw [List.mem_singleton.mp hlast]
          refine hbelow (path, none) ?_
          rw [hentries]
          exact List.mem_append_right _ List.mem_cons_self
  constructor
  · intro h written fault hinterrupted
    obtain ⟨hfault, hsame⟩ := hinterrupted.saveAll hs
    rw [← sameFilesBelow_outcome_iff (hwritten written fault hinterrupted)]
    exact (h fault hfault).trans (hsame root).symm
  · intro h fault hfault
    rcases saved_or_interrupted s entries with ⟨done, hentries, hdone⟩ |
      ⟨written, fault', hinterrupted⟩
    · rw [hentries, hdone.saveAll hs] at hfault
      cases hfault
    · have hunchanged := h written fault' hinterrupted
      rw [← sameFilesBelow_outcome_iff (hwritten written fault' hinterrupted)] at hunchanged
      exact hunchanged.trans ((hinterrupted.saveAll hs).2 root)

end Outcome

end Icflow.Foundation.Store
