import Icflow.Foundation.FreshName
import Icflow.Foundation.Numeral
import Icflow.Static.Sequential

set_option autoImplicit false

/-!
# Flattening the executables of a package

The loop of `build_package` that copies every ELF file of the package to its output
directory, under its own name or under the first name with a number at which `[[ -e ]]`
finds nothing.  That nothing is found there does not mean that `cp` can make a file there:
the name may belong to a link that leads nowhere, or be longer than a name may be.
-/

namespace Icflow.Static

open Icflow.Foundation Icflow.Collect

/-! ## The output directory -/

/-- What a name in the output directory belongs to. -/
inductive Entry where
  | file (bytes : List Char)
  /-- a directory, or anything else that is there -/
  | other
  /-- a symbolic link to nothing, with the directory and the name that
  `realpath --relative-to` prints for it, both empty where it prints nothing -/
  | danglingLink (leads : Elf)
  deriving DecidableEq

/-- A name with what it belongs to; of equal names the first counts. -/
abbrev OutputDirectory : Type := List (List Char × Entry)

/-- What a name belongs to is no link and not missing. -/
def isThere : Option Entry → Bool
  | some (.file _) | some .other => true
  | some (.danglingLink _) | none => false

/-- `[[ -e "$out_dir/$name" ]]`, which follows links: when a file is made in this directory at
the place where a link leads, the link leads to nothing no more. -/
def existsAt (directory : PackageName) (output : OutputDirectory) (name : List Char) : Bool :=
  match output.lookup name with
  | some (.danglingLink leads) =>
      decide (leads.directory = directory) && isThere (output.lookup leads.name)
  | entry => isThere entry

/-- `cp "$exe" "$dest"`: a file is written over, a link to nothing is refused, and `fits`
tells whether a name is no longer than a name may be. -/
def copyTo (fits : List Char → Bool) (output : OutputDirectory) (name bytes : List Char) :
    OutputDirectory :=
  match output.lookup name with
  | some (.file _) => (name, .file bytes) :: output
  | some .other | some (.danglingLink _) => output
  | none => if fits name then (name, .file bytes) :: output else output

/-- `realpath --relative-to="$ELF_OUTPUT_DIR" "$dest"`: a link is followed to where nothing is,
and for a name that is too long nothing is printed. -/
def shownAt (fits : List Char → Bool) (directory : PackageName) (output : OutputDirectory)
    (name : List Char) : Elf :=
  match output.lookup name with
  | some (.danglingLink leads) => leads
  | some (.file _) | some .other => ⟨directory, name⟩
  | none => if fits name then ⟨directory, name⟩ else ⟨[], []⟩

/-- A path that `find` delivers to the loop. -/
structure Source where
  path : List Char
  bytes : List Char
  /-- `file` calls it an ELF file and `objdump -h` reads it -/
  usable : Bool

/-- `base_name` -/
def Source.baseName (source : Source) : List Char := filename source.path

/-! ## The loop -/

/-- The output directory and the lines written to `elf_map.txt`. -/
structure Flattening where
  output : OutputDirectory
  lines : List MapLine

section Loop

variable (fits : List Char → Bool) (directory : PackageName)

/-- The copy to the free name, and its line. -/
def Flattening.copied (state : Flattening) (source : Source) (name : List Char) : Flattening :=
  { output := copyTo fits state.output name source.bytes
    lines := state.lines ++
      [⟨source.path, shownAt fits directory (copyTo fits state.output name source.bytes) name⟩] }

/-- The body of the loop; `none` is a search for a name that has not ended after as many
tests as there is fuel. -/
def flattenOne (fuel : Nat) (state : Flattening) (source : Source) : Option Flattening :=
  if source.usable then
    match firstFree (existsAt directory state.output) (candidate source.baseName) fuel 0 with
    | none => none
    | some i => some (state.copied fits directory source (candidate source.baseName i))
  else some state

/-- The loop over the paths that `find` delivers. -/
def flattenAll (fuel : Nat) : Flattening → List Source → Option Flattening
  | state, [] => some state
  | state, source :: rest =>
      match flattenOne fits directory fuel state source with
      | none => none
      | some state => flattenAll fuel state rest

end Loop

/-! ## What flattening means -/

/-- The ELF files among the delivered paths. -/
def usableSources (sources : List Source) : List Source := sources.filter Source.usable

/-- The lines that the loop adds relate the ELF files to new files with their bytes, one to
one, and what was in the directory stays as it was. -/
structure Flattened (directory : PackageName) (output : OutputDirectory) (sources : List Source)
    (lines : List MapLine) (final : OutputDirectory) : Prop where
  paths : lines.map MapLine.exe = (usableSources sources).map Source.path
  inDirectory : ∀ line ∈ lines, line.elf.directory = directory
  distinct : (lines.map MapLine.elf).Nodup
  fresh : ∀ line ∈ lines, output.lookup line.elf.name = none
  received : lines.map (fun line => final.lookup line.elf.name) =
    (usableSources sources).map fun source => some (.file source.bytes)
  kept : ∀ name entry, output.lookup name = some entry → final.lookup name = some entry

/-- The loop ends and has flattened what it was given. -/
def Flattens (fits : List Char → Bool) (directory : PackageName) (output : OutputDirectory)
    (sources : List Source) : Prop :=
  ∃ fuel final, flattenAll fits directory fuel ⟨output, []⟩ sources = some final ∧
    Flattened directory output sources final.lines final.output

/-- Before each ELF file is copied, the first name of its at which nothing is found is no
name of a link and fits. -/
inductive AllClear (fits : List Char → Bool) (directory : PackageName) :
    OutputDirectory → List Source → Prop where
  | nil (output : OutputDirectory) : AllClear fits directory output []
  | skip (output : OutputDirectory) (source : Source) (rest : List Source)
      (husable : source.usable = false) (hrest : AllClear fits directory output rest) :
      AllClear fits directory output (source :: rest)
  | copy (output : OutputDirectory) (source : Source) (rest : List Source) (i : Nat)
      (husable : source.usable = true)
      (hfirst : IsFirstFree (existsAt directory output) (candidate source.baseName) i)
      (habsent : output.lookup (candidate source.baseName i) = none)
      (hfits : fits (candidate source.baseName i) = true)
      (hrest : AllClear fits directory ((candidate source.baseName i, .file source.bytes) :: output)
        rest) :
      AllClear fits directory output (source :: rest)

/-! ## The search ends -/

section Search

theorem candidate_injective (baseName : List Char) : Function.Injective (candidate baseName) := by
  intro i j h
  unfold candidate at h
  by_cases hi : i = 0
  · by_cases hj : j = 0
    · rw [hi, hj]
    · rw [if_pos hi, if_neg hj] at h
      exact absurd (List.self_eq_append_right.mp h) (List.cons_ne_nil _ _)
  · by_cases hj : j = 0
    · rw [if_neg hi, if_pos hj] at h
      exact absurd (List.self_eq_append_right.mp h.symm) (List.cons_ne_nil _ _)
    · rw [if_neg hi, if_neg hj] at h
      exact toDigits_injective (by decide) (by decide)
        (List.cons.inj (List.append_cancel_left h)).2

theorem mem_names_of_existsAt {directory : PackageName} {output : OutputDirectory}
    {name : List Char} (h : existsAt directory output name = true) :
    name ∈ output.map Prod.fst := by
  by_contra hnot
  have hnone : output.lookup name = none := by
    rw [List.lookup_eq_none_iff]
    intro entry hentry
    rw [bne_iff_ne]
    rintro rfl
    exact hnot (List.mem_map_of_mem hentry)
  rw [existsAt, hnone] at h
  cases h

/-- In a directory with finitely many names the search ends, after at most one test more. -/
theorem exists_isFirstFree_candidate (directory : PackageName) (output : OutputDirectory)
    (baseName : List Char) :
    ∃ i ≤ output.length, IsFirstFree (existsAt directory output) (candidate baseName) i := by
  obtain ⟨i, hi, hfirst⟩ := exists_isFirstFree (candidate_injective baseName)
    (output.map Prod.fst) fun name => mem_names_of_existsAt
  rw [List.length_map] at hi
  exact ⟨i, hi, hfirst⟩

variable {fits : List Char → Bool} {directory : PackageName} {fuel : Nat} {state : Flattening}
  {source : Source}

theorem flattenOne_of_usable (husable : source.usable = true) {i : Nat}
    (hfirst : IsFirstFree (existsAt directory state.output) (candidate source.baseName) i)
    (hfuel : i < fuel) :
    flattenOne fits directory fuel state source =
      some (state.copied fits directory source (candidate source.baseName i)) := by
  have hsearch := firstFree_zero_eq_some_iff.mpr ⟨hfuel, hfirst⟩
  rw [flattenOne, if_pos husable, hsearch]

theorem flattenOne_of_not_usable (husable : source.usable = false) :
    flattenOne fits directory fuel state source = some state := by
  rw [flattenOne, if_neg (Bool.eq_false_iff.mp husable)]

/-- A copy is refused or makes a file. -/
theorem copyTo_cases (fits : List Char → Bool) (output : OutputDirectory)
    (name bytes : List Char) :
    copyTo fits output name bytes = output ∨
      copyTo fits output name bytes = (name, .file bytes) :: output := by
  unfold copyTo
  split
  · exact Or.inr rfl
  · exact Or.inl rfl
  · exact Or.inl rfl
  · split
    · exact Or.inr rfl
    · exact Or.inl rfl

theorem length_copyTo_le (fits : List Char → Bool) (output : OutputDirectory)
    (name bytes : List Char) : (copyTo fits output name bytes).length ≤ output.length + 1 := by
  rcases copyTo_cases fits output name bytes with hrefused | hmade
  · rw [hrefused]
    exact Nat.le_succ _
  · rw [hmade, List.length_cons]

/-- The loop ends: with this much fuel no search is cut short. -/
theorem exists_flattenAll (fits : List Char → Bool) (directory : PackageName)
    (sources : List Source) (state : Flattening) {fuel : Nat}
    (hfuel : state.output.length + sources.length < fuel) :
    ∃ final, flattenAll fits directory fuel state sources = some final := by
  induction sources generalizing state with
  | nil => exact ⟨state, rfl⟩
  | cons source rest ih =>
      rw [List.length_cons] at hfuel
      unfold flattenAll
      cases husable : source.usable with
      | false =>
          rw [flattenOne_of_not_usable husable]
          apply ih
          omega
      | true =>
          obtain ⟨i, hi, hfirst⟩ := exists_isFirstFree_candidate directory state.output source.baseName
          rw [flattenOne_of_usable husable hfirst (by omega)]
          apply ih
          have hlength := length_copyTo_le fits state.output (candidate source.baseName i) source.bytes
          unfold Flattening.copied
          dsimp only
          omega

/-- What happens to one path. -/
theorem flattenAll_cons_cases {rest : List Source} {final : Flattening}
    (h : flattenAll fits directory fuel state (source :: rest) = some final) :
    (source.usable = false ∧ flattenAll fits directory fuel state rest = some final) ∨
      (source.usable = true ∧ ∃ i,
        IsFirstFree (existsAt directory state.output) (candidate source.baseName) i ∧
          flattenAll fits directory fuel
            (state.copied fits directory source (candidate source.baseName i)) rest = some final) := by
  unfold flattenAll at h
  cases husable : source.usable with
  | false =>
      rw [flattenOne_of_not_usable husable] at h
      exact Or.inl ⟨rfl, h⟩
  | true =>
      rw [flattenOne, if_pos husable] at h
      cases hsearch : firstFree (existsAt directory state.output) (candidate source.baseName) fuel 0 with
      | none =>
          rw [hsearch] at h
          cases h
      | some i =>
          rw [hsearch] at h
          exact Or.inr ⟨rfl, i, (firstFree_zero_eq_some_iff.mp hsearch).2, h⟩

end Search

/-! ## Clear directories are flattened -/

section Flattens

variable {fits : List Char → Bool} {directory : PackageName} {output : OutputDirectory}
  {source : Source} {rest sources : List Source}

theorem lookup_cons_of_ne {name other : List Char} {entry : Entry} (h : name ≠ other) :
    List.lookup name ((other, entry) :: output) = output.lookup name := by
  rw [List.lookup_cons, beq_eq_false_iff_ne.mpr h]

/-- Nothing is found where no name is, or at a link. -/
theorem existsAt_eq_false {name : List Char} (h : existsAt directory output name = false) :
    output.lookup name = none ∨ ∃ leads, output.lookup name = some (.danglingLink leads) := by
  unfold existsAt at h
  cases hlookup : output.lookup name with
  | none => exact Or.inl rfl
  | some entry =>
      cases entry with
      | file bytes => rw [hlookup] at h; cases h
      | other => rw [hlookup] at h; cases h
      | danglingLink leads => exact Or.inr ⟨leads, rfl⟩

theorem copyTo_of_none {name bytes : List Char} (habsent : output.lookup name = none)
    (hfits : fits name = true) : copyTo fits output name bytes = (name, .file bytes) :: output := by
  unfold copyTo
  rw [habsent]
  exact if_pos hfits

/-- A copy that is refused leaves the directory as it is. -/
theorem copyTo_of_not_clear {name bytes : List Char}
    (hfree : existsAt directory output name = false)
    (h : ¬(output.lookup name = none ∧ fits name = true)) :
    copyTo fits output name bytes = output := by
  unfold copyTo
  rcases existsAt_eq_false hfree with habsent | ⟨leads, hlink⟩
  · rw [habsent]
    exact if_neg fun hfits => h ⟨habsent, hfits⟩
  · rw [hlink]

/-- A name that a copy makes is the one it was given. -/
theorem made_of_copyTo {name other bytes : List Char} {entry : Entry}
    (hbefore : output.lookup name = none)
    (hmade : (copyTo fits output other bytes).lookup name = some entry) :
    name = other ∧ copyTo fits output other bytes = (name, .file bytes) :: output := by
  rcases copyTo_cases fits output other bytes with hrefused | hcopy
  · rw [hrefused, hbefore] at hmade
    cases hmade
  · have hname : name = other := by
      by_contra hne
      rw [hcopy, lookup_cons_of_ne hne, hbefore] at hmade
      cases hmade
    exact ⟨hname, hname ▸ hcopy⟩

theorem shownAt_cons_self (name bytes : List Char) :
    shownAt fits directory ((name, .file bytes) :: output) name = ⟨directory, name⟩ := by
  rw [shownAt, List.lookup_cons_self]

/-- A file is made and shown where nothing was and the name fits. -/
theorem Flattening.copied_of_none {before : List MapLine} {name : List Char}
    (habsent : output.lookup name = none) (hfits : fits name = true) :
    Flattening.copied fits directory ⟨output, before⟩ source name =
      ⟨(name, .file source.bytes) :: output, before ++ [⟨source.path, ⟨directory, name⟩⟩]⟩ := by
  unfold Flattening.copied
  dsimp only
  rw [copyTo_of_none habsent hfits, shownAt_cons_self]

/-- One more ELF file, before the files that are already flattened. -/
theorem Flattened.cons {name : List Char} {lines : List MapLine} {final : OutputDirectory}
    (husable : source.usable = true) (habsent : output.lookup name = none)
    (h : Flattened directory ((name, .file source.bytes) :: output) rest lines final) :
    Flattened directory output (source :: rest) (⟨source.path, ⟨directory, name⟩⟩ :: lines)
      final := by
  have hlist : usableSources (source :: rest) = source :: usableSources rest :=
    List.filter_cons_of_pos husable
  have hname : ∀ line ∈ lines, line.elf.name ≠ name := by
    intro line hline heq
    have hfresh := h.fresh line hline
    rw [heq, List.lookup_cons_self] at hfresh
    cases hfresh
  constructor
  · rw [hlist, List.map_cons, List.map_cons, h.paths]
  · exact List.forall_mem_cons.mpr ⟨rfl, h.inDirectory⟩
  · rw [List.map_cons, List.nodup_cons]
    refine ⟨?_, h.distinct⟩
    intro hmem
    obtain ⟨line, hline, heq⟩ := List.mem_map.mp hmem
    exact hname line hline (congrArg Elf.name heq)
  · refine List.forall_mem_cons.mpr ⟨habsent, ?_⟩
    intro line hline
    rw [← lookup_cons_of_ne (hname line hline)]
    exact h.fresh line hline
  · rw [hlist, List.map_cons, List.map_cons, h.received]
    rw [h.kept name (.file source.bytes) List.lookup_cons_self]
  · intro other entry hother
    apply h.kept
    rw [lookup_cons_of_ne]
    · exact hother
    · rintro rfl
      rw [habsent] at hother
      cases hother

/-- The same the other way round. -/
theorem Flattened.tail {name : List Char} {lines : List MapLine} {final : OutputDirectory}
    (husable : source.usable = true)
    (h : Flattened directory output (source :: rest) (⟨source.path, ⟨directory, name⟩⟩ :: lines)
      final) :
    output.lookup name = none ∧ final.lookup name = some (.file source.bytes) ∧
      Flattened directory ((name, .file source.bytes) :: output) rest lines final := by
  have hlist : usableSources (source :: rest) = source :: usableSources rest :=
    List.filter_cons_of_pos husable
  have hpaths := h.paths
  have hdistinct := h.distinct
  have hreceived := h.received
  rw [hlist, List.map_cons, List.map_cons, List.cons.injEq] at hpaths hreceived
  rw [List.map_cons, List.nodup_cons] at hdistinct
  obtain ⟨hdirectory, hinDirectory⟩ := List.forall_mem_cons.mp h.inDirectory
  obtain ⟨habsent, hfresh⟩ := List.forall_mem_cons.mp h.fresh
  have hname : ∀ line ∈ lines, line.elf.name ≠ name := by
    intro line hline heq
    apply hdistinct.1
    have helf : line.elf = ⟨directory, name⟩ := by
      rw [← hinDirectory line hline, ← heq]
    have hmem : line.elf ∈ lines.map MapLine.elf := List.mem_map_of_mem hline
    rwa [helf] at hmem
  refine ⟨habsent, hreceived.1, hpaths.2, hinDirectory, hdistinct.2, ?_, hreceived.2, ?_⟩
  · intro line hline
    rw [lookup_cons_of_ne (hname line hline)]
    exact hfresh line hline
  · intro other entry hother
    by_cases heq : other = name
    · rw [heq, List.lookup_cons_self] at hother
      cases hother
      rw [heq]
      exact hreceived.1
    · rw [lookup_cons_of_ne heq] at hother
      exact h.kept other entry hother

/-- What is not usable is passed over. -/
theorem flattened_of_not_usable {lines : List MapLine} {final : OutputDirectory}
    (husable : source.usable = false) :
    Flattened directory output (source :: rest) lines final ↔
      Flattened directory output rest lines final := by
  have hlist : usableSources (source :: rest) = usableSources rest :=
    List.filter_cons_of_neg (Bool.eq_false_iff.mp husable)
  constructor
  · rintro ⟨hpaths, hinDirectory, hdistinct, hfresh, hreceived, hkept⟩
    rw [hlist] at hpaths hreceived
    exact ⟨hpaths, hinDirectory, hdistinct, hfresh, hreceived, hkept⟩
  · rintro ⟨hpaths, hinDirectory, hdistinct, hfresh, hreceived, hkept⟩
    rw [← hlist] at hpaths hreceived
    exact ⟨hpaths, hinDirectory, hdistinct, hfresh, hreceived, hkept⟩

theorem flattened_of_allClear (h : AllClear fits directory output sources)
    (before : List MapLine) {fuel : Nat} (hfuel : output.length + sources.length < fuel) :
    ∃ lines final, flattenAll fits directory fuel ⟨output, before⟩ sources =
        some ⟨final, before ++ lines⟩ ∧
      Flattened directory output sources lines final := by
  induction h generalizing before with
  | nil output =>
      refine ⟨[], output, ?_, rfl, List.forall_mem_nil _, List.nodup_nil, List.forall_mem_nil _, rfl,
        fun _ _ => id⟩
      rw [List.append_nil]
      rfl
  | skip output source rest husable _ ih =>
      rw [List.length_cons] at hfuel
      obtain ⟨lines, final, hrun, hflattened⟩ := ih before (by omega)
      refine ⟨lines, final, ?_, (flattened_of_not_usable husable).mpr hflattened⟩
      rw [flattenAll, flattenOne_of_not_usable husable]
      exact hrun
  | copy output source rest i husable hfirst habsent hfits _ ih =>
      rw [List.length_cons] at hfuel ih
      obtain ⟨lines, final, hrun, hflattened⟩ :=
        ih (before ++ [⟨source.path, ⟨directory, candidate source.baseName i⟩⟩]) (by omega)
      have hi : i ≤ output.length := by
        obtain ⟨j, hj, hother⟩ := exists_isFirstFree_candidate directory output source.baseName
        exact hfirst.unique hother ▸ hj
      refine ⟨_, final, ?_, Flattened.cons husable habsent hflattened⟩
      rw [flattenAll, flattenOne_of_usable husable hfirst (by omega),
        Flattening.copied_of_none habsent hfits]
      rw [List.append_assoc, List.singleton_append] at hrun
      exact hrun

/-- The lines written before stay in front. -/
theorem exists_lines_of_flattenAll {fuel : Nat} {state final : Flattening}
    (h : flattenAll fits directory fuel state sources = some final) :
    ∃ lines, final.lines = state.lines ++ lines := by
  induction sources generalizing state with
  | nil =>
      cases h
      exact ⟨[], (List.append_nil _).symm⟩
  | cons source rest ih =>
      rcases flattenAll_cons_cases h with ⟨_, hrest⟩ | ⟨_, i, _, hrest⟩
      · exact ih hrest
      · obtain ⟨lines, hlines⟩ := ih hrest
        exact ⟨_, hlines.trans (List.append_assoc _ _ _)⟩

/-- The line of the first ELF file, and the lines after it. -/
theorem exists_later_of_flattenAll {fuel : Nat} {state final : Flattening} {name : List Char}
    {lines : List MapLine}
    (h : flattenAll fits directory fuel (state.copied fits directory source name) rest = some final)
    (hlines : final.lines = state.lines ++ lines) :
    ∃ later, final.lines = (state.copied fits directory source name).lines ++ later ∧
      lines = ⟨source.path,
        shownAt fits directory (copyTo fits state.output name source.bytes) name⟩ :: later := by
  obtain ⟨later, hlater⟩ := exists_lines_of_flattenAll h
  refine ⟨later, hlater, ?_⟩
  unfold Flattening.copied at hlater
  rw [hlines, List.append_assoc] at hlater
  exact List.append_cancel_left hlater

/-- A name that the loop makes is shown by one of its lines. -/
theorem exists_line_of_flattenAll {fuel : Nat} {state final : Flattening} {lines : List MapLine}
    (h : flattenAll fits directory fuel state sources = some final)
    (hlines : final.lines = state.lines ++ lines) {name : List Char} {entry : Entry}
    (hbefore : state.output.lookup name = none)
    (hfinal : final.output.lookup name = some entry) :
    ∃ line ∈ lines, line.elf = ⟨directory, name⟩ := by
  induction sources generalizing state lines with
  | nil =>
      cases h
      rw [hbefore] at hfinal
      cases hfinal
  | cons source rest ih =>
      rcases flattenAll_cons_cases h with ⟨_, hrest⟩ | ⟨_, i, _, hrest⟩
      · exact ih hrest hlines hbefore
      · obtain ⟨later, hlater, rfl⟩ := exists_later_of_flattenAll hrest hlines
        cases hmade : (copyTo fits state.output (candidate source.baseName i)
            source.bytes).lookup name with
        | none =>
            obtain ⟨line, hline, helf⟩ := ih hrest hlater hmade
            exact ⟨line, List.mem_cons_of_mem _ hline, helf⟩
        | some made =>
            obtain ⟨rfl, hcopy⟩ := made_of_copyTo hbefore hmade
            refine ⟨_, List.mem_cons_self, ?_⟩
            rw [hcopy, shownAt_cons_self]

/-- When nothing is made for a file, its line shows the place of another or of none. -/
theorem not_flattened_of_refused {fuel : Nat} {before lines : List MapLine} {line : MapLine}
    {final : Flattening} (husable : source.usable = true)
    (hrun : flattenAll fits directory fuel ⟨output, before⟩ rest = some final)
    (hlines : final.lines = before ++ lines) :
    ¬ Flattened directory output (source :: rest) (line :: lines) final.output := by
  intro h
  have hlist : usableSources (source :: rest) = source :: usableSources rest :=
    List.filter_cons_of_pos husable
  have hreceived := h.received
  rw [hlist, List.map_cons, List.map_cons, List.cons.injEq] at hreceived
  have hdirectory : line.elf.directory = directory := h.inDirectory line List.mem_cons_self
  have hfresh : output.lookup line.elf.name = none := h.fresh line List.mem_cons_self
  obtain ⟨other, hother, helf⟩ := exists_line_of_flattenAll hrun hlines hfresh hreceived.1
  have hdistinct := h.distinct
  rw [List.map_cons, List.nodup_cons] at hdistinct
  apply hdistinct.1
  have hsame : other.elf = line.elf := by
    rw [helf, ← hdirectory]
  rw [← hsame]
  exact List.mem_map_of_mem hother

theorem allClear_of_flattened {fuel : Nat} {before lines : List MapLine} {final : Flattening}
    (hrun : flattenAll fits directory fuel ⟨output, before⟩ sources = some final)
    (hlines : final.lines = before ++ lines)
    (h : Flattened directory output sources lines final.output) :
    AllClear fits directory output sources := by
  induction sources generalizing output before lines with
  | nil => exact .nil output
  | cons source rest ih =>
      rcases flattenAll_cons_cases hrun with ⟨husable, hrest⟩ | ⟨husable, i, hfirst, hrest⟩
      · exact .skip output source rest husable
          (ih hrest hlines ((flattened_of_not_usable husable).mp h))
      · obtain ⟨later, hlater, rfl⟩ := exists_later_of_flattenAll hrest hlines
        have hmade : output.lookup (candidate source.baseName i) = none ∧
            fits (candidate source.baseName i) = true := by
          by_contra hnot
          have hcopy : copyTo fits output (candidate source.baseName i) source.bytes = output :=
            copyTo_of_not_clear hfirst.free hnot
          unfold Flattening.copied at hrest hlater
          rw [hcopy] at hrest hlater
          exact not_flattened_of_refused husable hrest hlater h
        obtain ⟨habsent, hfits⟩ := hmade
        rw [Flattening.copied_of_none habsent hfits] at hrest hlater
        rw [copyTo_of_none habsent hfits, shownAt_cons_self] at h
        obtain ⟨_, _, htail⟩ := h.tail husable
        exact .copy output source rest i husable hfirst habsent hfits (ih hrest hlater htail)

/-- Flattening is as it should be when the search for a name never ends at a link to nothing
or at a name that is too long, and only then. -/
theorem flattens_iff (fits : List Char → Bool) (directory : PackageName) (output : OutputDirectory)
    (sources : List Source) :
    Flattens fits directory output sources ↔ AllClear fits directory output sources := by
  constructor
  · rintro ⟨fuel, final, hrun, hflattened⟩
    exact allClear_of_flattened hrun (List.nil_append _).symm hflattened
  · intro h
    obtain ⟨lines, final, hrun, hflattened⟩ :=
      flattened_of_allClear h [] (Nat.lt_succ_self _)
    exact ⟨_, _, hrun, hflattened⟩

/-- Two ELF files with one name. -/
def twinSources : List Source :=
  [⟨"/p/pkg/x/a".toList, ['x'], true⟩, ⟨"/p/pkg/y/a".toList, ['y'], true⟩]

/-- With a link to nothing under that name, both lines tell where it leads and no file is
made. -/
theorem not_flattens_danglingLink :
    ¬ Flattens (fun _ => true) ['p']
      [(['a'], .danglingLink ⟨['p'], "missing".toList⟩)] twinSources := by
  rintro ⟨fuel, final, hrun, hflattened⟩
  have hclear := allClear_of_flattened hrun (List.nil_append _).symm hflattened
  cases hclear with
  | skip _ _ _ husable _ => cases husable
  | copy _ _ _ i _ hfirst habsent _ _ =>
      have hzero : IsFirstFree
          (existsAt ['p'] [(['a'], .danglingLink ⟨['p'], "missing".toList⟩)])
          (candidate (filename "/p/pkg/x/a".toList)) 0 :=
        ⟨by decide, fun j hj => absurd hj (Nat.not_lt_zero j)⟩
      rw [hfirst.unique hzero] at habsent
      exact absurd habsent (by decide)

/-- Without links to nothing and with room for every name, everything is clear. -/
theorem allClear_of_fits (houtput : ∀ name leads, output.lookup name ≠ some (.danglingLink leads))
    (hfits : ∀ source ∈ sources, ∀ i, fits (candidate source.baseName i) = true) :
    AllClear fits directory output sources := by
  induction sources generalizing output with
  | nil => exact .nil output
  | cons source rest ih =>
      obtain ⟨hsource, hrest⟩ := List.forall_mem_cons.mp hfits
      cases husable : source.usable with
      | false => exact .skip output source rest husable (ih houtput hrest)
      | true =>
          obtain ⟨i, _, hfirst⟩ := exists_isFirstFree_candidate directory output source.baseName
          have habsent : output.lookup (candidate source.baseName i) = none := by
            rcases existsAt_eq_false hfirst.free with habsent | ⟨leads, hlink⟩
            · exact habsent
            · exact absurd hlink (houtput _ leads)
          refine .copy output source rest i husable hfirst habsent (hsource i) (ih ?_ hrest)
          intro name leads
          by_cases hname : name = candidate source.baseName i
          · rw [hname, List.lookup_cons_self]
            rintro ⟨⟩
          · rw [lookup_cons_of_ne hname]
            exact houtput name leads

end Flattens

/-! ## The loop as steps of a job -/

section Steps

variable {config : Config} {url : Url} {fits : List Char → Bool} {output : OutputDirectory}
  {sources : List Source}

/-- The directory of a package. -/
def packageOutput (config : Config) (url : Url) : PackageName :=
  outDirectory (packageName config.machine url)

/-- The files that a store has in the output directory of the package. -/
def Shows (config : Config) (url : Url) (s : Store) (output : OutputDirectory) : Prop :=
  ∀ name, ⟨packageOutput config url, name⟩ ∈ s.elves ↔
    existsAt (packageOutput config url) output name = true

/-- No link to nothing leads back into the directory. -/
def LeadsOut (directory : PackageName) (output : OutputDirectory) : Prop :=
  ∀ name leads, output.lookup name = some (.danglingLink leads) → leads.directory ≠ directory

theorem LeadsOut.cons {directory : PackageName} (h : LeadsOut directory output)
    (name bytes : List Char) : LeadsOut directory ((name, .file bytes) :: output) := by
  intro other leads hlink
  by_cases hname : other = name
  · rw [hname, List.lookup_cons_self] at hlink
    cases hlink
  · rw [lookup_cons_of_ne hname] at hlink
    exact h other leads hlink

theorem existsAt_cons_self (directory : PackageName) (name bytes : List Char)
    (output : OutputDirectory) : existsAt directory ((name, .file bytes) :: output) name = true := by
  rw [existsAt, List.lookup_cons_self]
  rfl

theorem LeadsOut.existsAt_cons_of_ne {directory : PackageName} (h : LeadsOut directory output)
    {name other : List Char} {entry : Entry} (hname : name ≠ other) :
    existsAt directory ((other, entry) :: output) name = existsAt directory output name := by
  unfold existsAt
  rw [lookup_cons_of_ne hname]
  split
  · rename_i leads hlink
    rw [decide_eq_false (h name leads hlink), Bool.false_and, Bool.false_and]
  · rfl

theorem turn_build {s s' : Store} {events : List Event} {job next : BuildJob}
    (h : BuildStep config s job events s' (some next)) :
    Trace (JobPool.Turn (buildPhase config)) (s, job) events (s', next) :=
  .single h

/-- The three steps in which a job copies one ELF file. -/
theorem trace_copied (s : Store) (exe : List Char) (exes : List (List Char)) {i : Nat}
    (hshows : Shows config url s output)
    (hfirst : IsFirstFree (existsAt (packageOutput config url) output)
      (candidate (filename exe)) i) :
    Trace (JobPool.Turn (buildPhase config)) (s, ⟨url, .copying (exe :: exes)⟩) []
      ({ s with
          elves := insert ⟨packageOutput config url, candidate (filename exe) i⟩ s.elves
          elfMap := s.elfMap ++
            [⟨exe, ⟨packageOutput config url, candidate (filename exe) i⟩⟩] },
        ⟨url, .copying exes⟩) := by
  have hfree : (⟨packageOutput config url, candidate (filename exe) i⟩ : Elf) ∉ s.elves := by
    rw [hshows, hfirst.free]
    exact Bool.false_ne_true
  have htaken : ∀ j < i,
      (⟨packageOutput config url, candidate (filename exe) j⟩ : Elf) ∈ s.elves := by
    intro j hj
    rw [hshows]
    exact hfirst.before j hj
  exact (turn_build (BuildStep.pick s url exe exes i _ rfl hfree htaken)).trans
    ((turn_build (BuildStep.copy s url exe _ exes)).trans
      (turn_build (BuildStep.map _ url exe _ exes)))

theorem Shows.insert {s : Store} {name bytes : List Char} (h : Shows config url s output)
    (hlinks : LeadsOut (packageOutput config url) output) (lines : List MapLine) :
    Shows config url
      { s with elves := insert ⟨packageOutput config url, name⟩ s.elves, elfMap := lines }
      ((name, .file bytes) :: output) := by
  intro other
  rw [Finset.mem_insert, h, Elf.mk.injEq, and_iff_right rfl]
  by_cases hname : other = name
  · rw [hname]
    exact iff_of_true (Or.inl rfl) (existsAt_cons_self _ name bytes output)
  · rw [or_iff_right hname, hlinks.existsAt_cons_of_ne hname]

/-- A job that takes its turns does what the loop does, as long as everything is clear. -/
theorem exists_trace_copying (h : AllClear fits (packageOutput config url) output sources)
    (hlinks : LeadsOut (packageOutput config url) output) (s : Store)
    (hshows : Shows config url s output) {fuel : Nat}
    (hfuel : output.length + sources.length < fuel) (before : List MapLine) :
    ∃ lines final s',
      flattenAll fits (packageOutput config url) fuel ⟨output, before⟩ sources =
          some ⟨final, before ++ lines⟩ ∧
        Trace (JobPool.Turn (buildPhase config))
          (s, ⟨url, .copying ((usableSources sources).map Source.path)⟩) []
          (s', ⟨url, .copying []⟩) ∧
        s'.elfMap = s.elfMap ++ lines ∧ Shows config url s' final := by
  induction h generalizing s before with
  | nil output =>
      refine ⟨[], output, s, ?_, .refl, (List.append_nil _).symm, hshows⟩
      rw [List.append_nil]
      rfl
  | skip output source rest husable _ ih =>
      rw [List.length_cons] at hfuel
      have hlist : usableSources (source :: rest) = usableSources rest :=
        List.filter_cons_of_neg (Bool.eq_false_iff.mp husable)
      obtain ⟨lines, final, s', hrun, htrace⟩ := ih hlinks s hshows (by omega) before
      refine ⟨lines, final, s', ?_, hlist ▸ htrace⟩
      rw [flattenAll, flattenOne_of_not_usable husable]
      exact hrun
  | copy output source rest i husable hfirst habsent hfits _ ih =>
      rw [List.length_cons] at hfuel ih
      have hlist : usableSources (source :: rest) = source :: usableSources rest :=
        List.filter_cons_of_pos husable
      have hi : i ≤ output.length := by
        obtain ⟨j, hj, hother⟩ := exists_isFirstFree_candidate (packageOutput config url) output source.baseName
        exact hfirst.unique hother ▸ hj
      have hcopied := trace_copied s source.path ((usableSources rest).map Source.path) hshows hfirst
      obtain ⟨lines, final, s', hrun, htrace, hmap, hfinal⟩ :=
        ih (hlinks.cons _ _) _ (hshows.insert hlinks _) (by omega)
          (before ++ [⟨source.path, ⟨packageOutput config url, candidate source.baseName i⟩⟩])
      refine ⟨⟨source.path, ⟨packageOutput config url, candidate source.baseName i⟩⟩ :: lines, final,
        s', ?_, ?_, ?_, hfinal⟩
      · rw [flattenAll, flattenOne_of_usable husable hfirst (by omega),
          Flattening.copied_of_none habsent hfits]
        rw [List.append_assoc, List.singleton_append] at hrun
        exact hrun
      · rw [hlist]
        exact hcopied.trans htrace
      · rw [hmap, List.append_assoc, List.singleton_append]
        rfl

end Steps

end Icflow.Static
