import Icflow.Generate.Results
import Icflow.Generate.Targets

set_option autoImplicit false

/-!
# What writing the results touches

A report is written where its path leads, links followed, and only when the file can be
opened.  A report of a suite can be encoded only when the paths of its files can.
-/

namespace Icflow.Generate

open Icflow.Foundation

/-! ## Texts that can be encoded -/

/-- No lone surrogate. -/
def Clean (content : Name) : Prop := ∀ point ∈ content, isSurrogate point = false

theorem clean_append {first second : Name} :
    Clean (first ++ second) ↔ Clean first ∧ Clean second := List.forall_mem_append

theorem encodeText_isSome_iff {content : Name} :
    (encodeText content).isSome = true ↔ Clean content := by
  rw [encodeText, Option.isSome_map, isSome_mapM_iff]
  refine forall₂_congr fun point _ => ?_
  unfold encodePoint
  cases isSurrogate point <;> simp

theorem clean_of_small {content : Name} (h : (content.all fun point => point < 0xD800) = true) :
    Clean content := by
  intro point hpoint
  have hsmall := of_decide_eq_true (List.all_eq_true.mp h point hpoint)
  exact decide_eq_false fun hsurrogate => by omega

theorem clean_escapePoint {point : Nat} (h : isSurrogate point = false) :
    Clean (escapePoint point) := by
  unfold escapePoint
  cases hlookup : shortEscapes.lookup point with
  | some escape =>
      have hmem := mem_shortEscapes hlookup
      have hsmall : (shortEscapes.all fun entry => entry.2.all fun point => point < 0xD800) = true :=
        rfl
      exact clean_of_small (List.all_eq_true.mp hsmall _ hmem)
  | none =>
      dsimp only
      by_cases hcontrol : point < 32
      · rw [if_pos hcontrol, clean_append]
        refine ⟨clean_of_small rfl, clean_of_small ?_⟩
        simp only [List.all_cons, List.all_nil, Bool.and_true, Bool.and_eq_true, decide_eq_true_eq,
          hexDigit]
        constructor <;> split <;> omega
      · rw [if_neg hcontrol]
        exact List.forall_mem_singleton.mpr h

theorem clean_dumpsString {value : Name} (h : Clean value) : Clean (dumpsString value) := by
  rw [dumpsString, clean_append, clean_append]
  refine ⟨⟨clean_of_small rfl, ?_⟩, clean_of_small rfl⟩
  intro point hpoint
  obtain ⟨inner, hinner, hescape⟩ := List.mem_flatMap.mp hpoint
  exact clean_escapePoint (h inner hinner) point hescape

theorem escapePoint_surrogate {point : Nat} (h : isSurrogate point = true) :
    escapePoint point = [point] := by
  have hlarge : 0xD800 ≤ point := (of_decide_eq_true h).1
  have hlookup : shortEscapes.lookup point = none := by
    rw [List.lookup_eq_none_iff]
    intro entry hentry
    rw [bne_iff_ne]
    rintro rfl
    have hsmall : ∀ entry ∈ shortEscapes, entry.1 < 128 := by decide
    have := hsmall entry hentry
    omega
  have hcontrol : ¬ point < 32 := by omega
  simp only [escapePoint, hlookup, if_neg hcontrol]

section Surrogates

variable {number : List Char → Name} {point : Nat}

theorem mem_dumpsString (hpoint : isSurrogate point = true) {value : Name} (h : point ∈ value) :
    point ∈ dumpsString value := by
  refine List.mem_append_left _ (List.mem_append_right _ (List.mem_flatMap.mpr ⟨point, h, ?_⟩))
  rw [escapePoint_surrogate hpoint]
  exact List.mem_cons_self

theorem mem_dumpsElements {indent : Nat} {elements : List (Json Nat)} {value : Json Nat}
    (hvalue : value ∈ elements) (h : point ∈ dumps number indent value) :
    point ∈ dumpsElements number indent elements := by
  induction elements with
  | nil => cases hvalue
  | cons first rest ih =>
      unfold dumpsElements
      rcases List.mem_cons.mp hvalue with rfl | hrest
      · simp [h]
      · simp [ih hrest]

theorem mem_dumpsMembers {indent : Nat} {members : List (Name × Json Nat)} {name : Name}
    {value : Json Nat} (hvalue : (name, value) ∈ members) (h : point ∈ dumps number indent value) :
    point ∈ dumpsMembers number indent members := by
  induction members with
  | nil => cases hvalue
  | cons first rest ih =>
      obtain ⟨firstName, firstValue⟩ := first
      unfold dumpsMembers
      rcases List.mem_cons.mp hvalue with heq | hrest
      · obtain ⟨rfl, rfl⟩ := Prod.mk.inj heq
        simp [h]
      · simp [ih hrest]

/-- What is printed for an element is part of what is printed for the list. -/
theorem mem_dumps_arr {elements : List (Json Nat)} {value : Json Nat} (hvalue : value ∈ elements)
    (h : ∀ indent, point ∈ dumps number indent value) (indent : Nat) :
    point ∈ dumps number indent (.arr elements) := by
  cases elements with
  | nil => cases hvalue
  | cons first rest =>
      unfold dumps
      rcases List.mem_cons.mp hvalue with rfl | hrest
      · simp [h]
      · simp [mem_dumpsElements hrest (h (indent + 2))]

/-- What is printed for a member is part of what is printed for the dictionary. -/
theorem mem_dumps_obj {members : List (Name × Json Nat)} {name : Name} {value : Json Nat}
    (hvalue : getField members name = some value)
    (h : ∀ indent, point ∈ dumps number indent value) (indent : Nat) :
    point ∈ dumps number indent (.obj members) := by
  have hmem : (name, value) ∈ members := by
    obtain ⟨before, after, hsplit, _⟩ := List.lookup_eq_some_iff.mp hvalue
    rw [← List.mem_reverse, hsplit]
    exact List.mem_append_right _ List.mem_cons_self
  cases members with
  | nil => cases hmem
  | cons first rest =>
      obtain ⟨firstName, firstValue⟩ := first
      unfold dumps
      rcases List.mem_cons.mp hmem with heq | hrest
      · obtain ⟨rfl, rfl⟩ := Prod.mk.inj heq
        simp [h]
      · simp [mem_dumpsMembers hrest (h (indent + 2))]

end Surrogates

/-- A suite whose report can be encoded has paths that can. -/
theorem clean_path_of_clean_dumps {number : List Char → Name} {generated : Json Nat}
    {entries : List FileEntry} (hvalid : validateGeneratedSuite generated = .ok entries)
    (hclean : Clean (dumps number 0 generated)) {entry : FileEntry} (hentry : entry ∈ entries) :
    Clean entry.path := by
  obtain ⟨members, files, rfl, hfiles, hentries⟩ := validateGeneratedSuite_eq_ok hvalid
  obtain ⟨item, hitem, hvalidated⟩ := exists_left_of_forall₂ hentries hentry
  obtain ⟨fields, rfl, hpath, _⟩ := validateEntry_eq_ok hvalidated
  intro point hpoint
  by_contra hsurrogate
  rw [Bool.not_eq_false] at hsurrogate
  obtain ⟨value, hvalue, hstring⟩ := Option.bind_eq_some_iff.mp hpath
  obtain rfl : value = .str entry.path := by
    cases value with
    | str found => exact congrArg Json.str (Option.some.inj hstring)
    | null => cases hstring
    | bool flag => cases hstring
    | num lexeme => cases hstring
    | arr elements => cases hstring
    | obj inner => cases hstring
  have hprinted : ∀ indent, point ∈ dumps number indent (.str entry.path) := fun indent =>
    mem_dumpsString hsurrogate hpoint
  have hreport := mem_dumps_obj hfiles
    (mem_dumps_arr hitem (mem_dumps_obj hvalue hprinted)) 0
  rw [hclean point hreport] at hsurrogate
  cases hsurrogate

/-! ## One report -/

/-- A printer that prints numbers as they are read, close to the usual recursion limit. -/
def plainPrinter : Printer := ⟨fun lexeme => lexeme.map Char.toNat, 980, by decide⟩

section Report

variable {fs fs' : FileSystem} {path : Path}

/-- Where a path leads depends on the links only. -/
theorem leadsTo_congr
    (hlinks : ∀ key target, fs' key = some (.symlink target) ↔ fs key = some (.symlink target))
    (path : Path) : leadsTo fs' path = leadsTo fs path := by
  rw [leadsTo, leadsTo, resolve, resolve, resolveFrom_congr hlinks]

theorem writeText_of_leadsTo {key : Key} (hkey : leadsTo fs path = some key) (content : Name) :
    (writeText fs path content).1 = (Store.write fs key (encodeText content)).1 ∧
      ((writeText fs path content).2 = .ok () ↔
        Store.Openable fs key ∧ (encodeText content).isSome = true) := by
  rw [← Store.write_ok_iff, writeText]
  simp only [hkey]
  cases Store.write fs key (encodeText content) with
  | mk fs'' result =>
      cases result with
      | error fault => simp
      | ok _ => simp

theorem writeText_of_not_leadsTo (hkey : leadsTo fs path = none) (content : Name) :
    writeText fs path content = (fs, .error .unencodablePath) := by
  rw [writeText, hkey]

/-- A report touches the file its path leads to. -/
theorem touches_writeText (fs : FileSystem) (path : Path) (content : Name) :
    Store.Touches {key | leadsTo fs path = some key} fs (writeText fs path content).1 := by
  cases hkey : leadsTo fs path with
  | none =>
      rw [writeText_of_not_leadsTo hkey]
      exact Store.Touches.refl _ fs
  | some key =>
      rw [(writeText_of_leadsTo hkey content).1]
      have hself : key ∈ {other | some key = some other} := rfl
      exact Store.touches_write hself fs (encodeText content)

/-- A file that has been written holds the encoded text. -/
theorem encodeText_of_writeText {key : Key} {content : Name} {bytes : List Char}
    (hok : (writeText fs path content).2 = .ok ()) (hkey : leadsTo fs path = some key)
    (hbytes : (writeText fs path content).1 key = some (.file bytes)) :
    encodeText content = some bytes := by
  obtain ⟨hstore, hwritten⟩ := writeText_of_leadsTo hkey content
  obtain ⟨hopen, hsome⟩ := hwritten.mp hok
  obtain ⟨encoded, hencoded⟩ := Option.isSome_iff_exists.mp hsome
  rw [hstore, hencoded] at hbytes
  rcases hopen.write_self encoded with hfile | hspecial
  · rw [hfile] at hbytes
    cases hbytes
    exact hencoded
  · rw [hspecial] at hbytes
    cases hbytes

/-- A value that can be printed is written as any other text. -/
theorem writeReport_of_le {printer : Printer} {value : Json Nat}
    (hdepth : value.depth ≤ printer.maxDepth) :
    writeReport printer fs path value =
      writeText fs path (dumps printer.number 0 value ++ text "\n") :=
  if_neg (Nat.not_lt.mpr hdepth)

theorem writeReport_of_lt {printer : Printer} {value : Json Nat}
    (hdepth : printer.maxDepth < value.depth) :
    writeReport printer fs path value = (fs, .error .nestedTooDeep) := if_pos hdepth

/-- A report that has been written is of a value that can be printed. -/
theorem depth_of_writeReport {printer : Printer} {value : Json Nat}
    (hok : (writeReport printer fs path value).2 = .ok ()) : value.depth ≤ printer.maxDepth := by
  by_contra hdeep
  rw [writeReport_of_lt (Nat.lt_of_not_le hdeep)] at hok
  cases hok

theorem touches_writeReport (printer : Printer) (fs : FileSystem) (path : Path) (value : Json Nat) :
    Store.Touches {key | leadsTo fs path = some key} fs (writeReport printer fs path value).1 := by
  by_cases hdepth : value.depth ≤ printer.maxDepth
  · rw [writeReport_of_le hdepth]
    exact touches_writeText fs path _
  · rw [writeReport_of_lt (Nat.lt_of_not_le hdepth)]
    exact Store.Touches.refl _ fs

/-- What it takes to write a report, besides a place for it. -/
def Printable (printer : Printer) (value : Json Nat) : Prop :=
  value.depth ≤ printer.maxDepth ∧ Clean (dumps printer.number 0 value)

theorem clean_line {content : Name} : Clean (content ++ text "\n") ↔ Clean content := by
  rw [clean_append]
  exact and_iff_left (clean_of_small rfl)

/-- A report is written to a file that can be opened, when it can be printed. -/
theorem writeReport_of_leadsTo {printer : Printer} {key : Key} (hkey : leadsTo fs path = some key)
    (value : Json Nat) :
    (writeReport printer fs path value).2 = .ok () ↔
      Store.Openable fs key ∧ Printable printer value := by
  by_cases hdepth : value.depth ≤ printer.maxDepth
  · rw [writeReport_of_le hdepth, (writeText_of_leadsTo hkey _).2, encodeText_isSome_iff, clean_line]
    simp [Printable, hdepth]
  · rw [writeReport_of_lt (Nat.lt_of_not_le hdepth)]
    simp [Printable, hdepth]

theorem writeReport_of_not_leadsTo {printer : Printer} (hkey : leadsTo fs path = none)
    (value : Json Nat) : (writeReport printer fs path value).2 ≠ .ok () := by
  by_cases hdepth : value.depth ≤ printer.maxDepth
  · rw [writeReport_of_le hdepth, writeText_of_not_leadsTo hkey]
    simp
  · rw [writeReport_of_lt (Nat.lt_of_not_le hdepth)]
    simp

/-- What is left of a report that can be printed. -/
theorem writeReport_store {printer : Printer} {key : Key} {value : Json Nat}
    (hkey : leadsTo fs path = some key) (hdepth : value.depth ≤ printer.maxDepth) :
    (writeReport printer fs path value).1 =
      (Store.write fs key (encodeText (dumps printer.number 0 value ++ text "\n"))).1 := by
  rw [writeReport_of_le hdepth]
  exact (writeText_of_leadsTo hkey _).1

end Report

/-! ## The two writes -/

section Writes

variable {printer : Printer} {fs : FileSystem} {root : Path} {response : Response}

/-- A report can be written. -/
def Writable (printer : Printer) (fs : FileSystem) (path : Path) (value : Json Nat) : Prop :=
  ∃ report, leadsTo fs path = some report ∧ Store.Openable fs report ∧ Printable printer value

theorem writeReport_ok_iff {path : Path} {value : Json Nat} :
    (writeReport printer fs path value).2 = .ok () ↔ Writable printer fs path value := by
  cases hreport : leadsTo fs path with
  | none => simp [Writable, hreport, writeReport_of_not_leadsTo hreport]
  | some report =>
      rw [writeReport_of_leadsTo hreport]
      simp [Writable, hreport]

/-- A report that is written leaves the other one as it was to be written. -/
theorem writable_after {path other : Path} {value later : Json Nat}
    (h : Writable printer fs path value) :
    Writable printer (writeReport printer fs path value).1 other later ↔
      Writable printer fs other later := by
  obtain ⟨report, hreport, hopen, hdepth, _⟩ := h
  have hlinks := (touches_writeReport printer fs path value).link
  unfold Writable
  rw [leadsTo_congr hlinks]
  simp only [writeReport_store hreport hdepth, hopen.write_iff]

theorem writeReports_ok_iff :
    (writeReports printer fs root response).2 = .ok () ↔
      Writable printer fs (root ++ [generationName]) response.generated ∧
        Writable printer fs (root ++ [metadataName]) response.metadata := by
  have hfirst : (writeReport printer fs (root ++ [generationName]) response.generated).2 =
      .ok () ↔ _ := writeReport_ok_iff
  unfold writeReports
  cases hwrite : writeReport printer fs (root ++ [generationName]) response.generated with
  | mk fs' result =>
      rw [hwrite] at hfirst
      cases result with
      | error failure =>
          have hnot := fun hw => (hfirst.mpr hw)
          simp only [reduceCtorEq, imp_false] at hnot
          simp [hnot]
      | ok _ =>
          have hwritable := hfirst.mp rfl
          have hafter : fs' =
              (writeReport printer fs (root ++ [generationName]) response.generated).1 := by
            rw [hwrite]
          dsimp only
          rw [writeReport_ok_iff, hafter, writable_after hwritable]
          exact (and_iff_right hwritable).symm

end Writes

end Icflow.Generate
