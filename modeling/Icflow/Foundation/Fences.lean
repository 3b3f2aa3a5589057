import Icflow.Foundation.Occurrences

set_option autoImplicit false

/-!
# Fenced blocks

A fence is a line that starts with a mark.  `fenceParts` cuts a text at its fences, and every
second part is a block: it stands between an opening and a closing fence.  A text that is
put together from fences and bodies is cut into these bodies again exactly when no body
has a fence of its own.
-/

namespace Icflow.Foundation

variable {α : Type}

/-- The second, the fourth, … element. -/
def everySecond {β : Type} : List β → List β
  | [] => []
  | [_] => []
  | _ :: second :: rest => second :: everySecond rest

theorem length_everySecond {β : Type} (l : List β) : (everySecond l).length = l.length / 2 := by
  fun_induction everySecond l with
  | case1 => simp
  | case2 => simp
  | case3 first second rest ih =>
      rw [List.length_cons, ih, List.length_cons, List.length_cons]
      omega

variable (newline : α) (mark : List α)

/-- No line of the text starts with the mark. -/
def FenceFree (text : List α) : Prop := ¬ newline :: mark <:+: newline :: text

variable {newline mark}

theorem fenceFree_of_notMem {text : List α} {m : α} (hm : m ∈ mark) (hne : m ≠ newline)
    (htext : m ∉ text) : FenceFree newline mark text := by
  intro h
  rcases List.mem_cons.mp (h.subset (List.mem_cons_of_mem newline hm)) with heq | hmem
  · exact hne heq
  · exact htext hmem

theorem fenceFree_append_cons {c : α} (hne : c ≠ newline) (hc : c ∉ mark) (left right : List α) :
    FenceFree newline mark (left ++ c :: right) ↔
      FenceFree newline mark left ∧ ¬ newline :: mark <:+: right := by
  have hpattern : c ∉ newline :: mark := List.not_mem_cons_of_ne_of_not_mem hne hc
  have hsplit :=
    infix_append_cons_iff hpattern (newline :: left) right
  rw [List.cons_append] at hsplit
  rw [FenceFree, FenceFree, hsplit, not_or]

/-- Without a line that starts with the first element of the mark there is no fence. -/
theorem fenceFree_of_singleton {text : List α} {m : α} (h : FenceFree newline [m] text) :
    FenceFree newline (m :: mark) text := by
  intro hoccurs
  exact h ((List.prefix_append [newline, m] mark).isInfix.trans hoccurs)

/-- Two texts of which no line starts with `m` can be put together, also behind an element
that the first line continues. -/
theorem not_infix_append {m : α} {right : List α} (hright : FenceFree newline [m] right)
    (left : List α) : ∀ c : α, ¬ [newline, m] <:+: c :: left →
      ¬ [newline, m] <:+: c :: (left ++ right) := by
  induction left with
  | nil =>
      intro c _ h
      rcases List.infix_cons_iff.mp h with hhead | hlater
      · have hc := (List.cons_prefix_cons.mp hhead).1
        rw [← hc, List.nil_append] at h
        exact hright h
      · exact hright (hlater.trans (List.suffix_cons newline right).isInfix)
  | cons x left ih =>
      intro c hleft h
      rw [List.infix_cons_iff, not_or] at hleft
      rcases List.infix_cons_iff.mp h with hhead | hlater
      · rw [List.cons_append, List.cons_prefix_cons, List.cons_prefix_cons] at hhead
        refine hleft.1 ?_
        rw [List.cons_prefix_cons, List.cons_prefix_cons]
        exact ⟨hhead.1, hhead.2.1, List.nil_prefix⟩
      · exact ih x hleft.2 hlater

theorem fenceFree_append {m : α} {left right : List α} (hleft : FenceFree newline [m] left)
    (hright : FenceFree newline [m] right) : FenceFree newline [m] (left ++ right) :=
  not_infix_append hright left newline hleft

/-- A single line. -/
theorem fenceFree_line {m : α} {line : List α} (hline : newline ∉ line)
    (hhead : line.head? ≠ some m) : FenceFree newline [m] line := by
  intro h
  rcases List.infix_cons_iff.mp h with hfirst | hlater
  · cases line with
    | nil => simp at hfirst
    | cons x line =>
        rw [List.cons_prefix_cons, List.cons_prefix_cons] at hfirst
        exact hhead (congrArg some hfirst.2.1.symm)
  · exact hline (hlater.subset List.mem_cons_self)

variable [DecidableEq α] (newline mark)

/-- The parts of a text between its fences. -/
def fenceParts (text : List α) : List (List α) :=
  ((text.splitOn newline).splitOnP mark.isPrefixOf).map (List.intercalate [newline])

/-- The blocks of a text. -/
def fencedBlocks (text : List α) : List (List α) := everySecond (fenceParts newline mark text)

instance (text : List α) : Decidable (FenceFree newline mark text) :=
  inferInstanceAs (Decidable (¬ _))

/-- A text with a fence before each body but the first. -/
def renderFenced (first : List α) : List (List α × List α) → List α
  | [] => first
  | (fence, body) :: rest => first ++ newline :: (fence ++ newline :: renderFenced body rest)

variable {newline mark} {text : List α}

/-! ## Cutting a text -/

theorem fenceParts_append_fence {fence : List α} (hmark : mark <+: fence) (hline : newline ∉ fence)
    (left right : List α) :
    fenceParts newline mark (left ++ newline :: (fence ++ newline :: right)) =
      fenceParts newline mark left ++ fenceParts newline mark right := by
  have hfence : mark.isPrefixOf fence = true := List.isPrefixOf_iff_prefix.mpr hmark
  rw [fenceParts, List.splitOn_append_cons_self, List.splitOn_append_cons_self_of_not_mem hline,
    List.splitOnP_append_cons _ _ hfence, List.map_append]
  rfl

theorem fenceParts_ne_nil (newline : α) (mark text : List α) :
    fenceParts newline mark text ≠ [] := by
  rw [fenceParts, ne_eq, List.map_eq_nil_iff]
  exact List.splitOnP_ne_nil _ _

theorem fenceParts_renderFenced {fences : List (List α × List α)} (first : List α)
    (hfences : ∀ fence ∈ fences, mark <+: fence.1 ∧ newline ∉ fence.1) :
    fenceParts newline mark (renderFenced newline first fences) =
      (first :: fences.map Prod.snd).flatMap (fenceParts newline mark) := by
  induction fences generalizing first with
  | nil => simp [renderFenced]
  | cons fence rest ih =>
      rw [List.forall_mem_cons] at hfences
      rw [renderFenced, fenceParts_append_fence hfences.1.1 hfences.1.2, ih _ hfences.2,
        List.map_cons, List.flatMap_cons, List.flatMap_cons, List.flatMap_cons]

/-! ## Texts without a fence -/

/-- The first line starts like the text, and a later one starts behind a newline. -/
theorem exists_splitOn (newline : α) (text : List α) :
    ∃ first later, text.splitOn newline = first :: later ∧
      ∀ mark : List α, newline ∉ mark →
        (mark <+: first ↔ mark <+: text) ∧
        ((∃ line ∈ later, mark <+: line) ↔ newline :: mark <:+: text) := by
  induction text with
  | nil => exact ⟨[], [], List.splitOn_nil newline, fun mark _ => by simp⟩
  | cons c text ih =>
      obtain ⟨first, later, hsplit, hlines⟩ := ih
      rw [List.splitOn_cons_eq_if_modifyHead, hsplit]
      by_cases hc : c = newline
      · subst hc
        refine ⟨[], first :: later, by simp, fun mark hmark => ⟨?_, ?_⟩⟩
        · cases mark with
          | nil => simp
          | cons m mark =>
              have hm : m ≠ c := fun heq => hmark (heq ▸ List.mem_cons_self)
              simp [List.cons_prefix_cons, hm]
        · obtain ⟨hfirst, hlater⟩ := hlines mark hmark
          rw [List.infix_cons_iff, List.cons_prefix_cons, ← hlater, ← hfirst]
          simp
      · refine ⟨c :: first, later, by simp [hc], fun mark hmark => ⟨?_, ?_⟩⟩
        · cases mark with
          | nil => simp
          | cons m mark =>
              have hrest := hlines mark fun hmem => hmark (List.mem_cons_of_mem m hmem)
              rw [List.cons_prefix_cons, List.cons_prefix_cons, hrest.1]
        · rw [(hlines mark hmark).2, List.infix_cons_iff, List.cons_prefix_cons]
          simp [Ne.symm hc]

theorem fenceFree_iff_lines (hmark : newline ∉ mark) :
    FenceFree newline mark text ↔ ∀ line ∈ text.splitOn newline, ¬ mark <+: line := by
  obtain ⟨first, later, hsplit, hlines⟩ := exists_splitOn newline text
  obtain ⟨hfirst, hlater⟩ := hlines mark hmark
  rw [FenceFree, List.infix_cons_iff, List.cons_prefix_cons, ← hlater, ← hfirst, hsplit]
  simp

theorem fenceParts_of_fenceFree (hmark : newline ∉ mark) (h : FenceFree newline mark text) :
    fenceParts newline mark text = [text] := by
  have hlines : ∀ line ∈ text.splitOn newline, mark.isPrefixOf line = false := by
    intro line hline
    have hnot := (fenceFree_iff_lines hmark).mp h line hline
    rw [← List.isPrefixOf_iff_prefix, Bool.not_eq_true] at hnot
    exact hnot
  rw [fenceParts, List.splitOnP_eq_singleton hlines, List.map_singleton, List.intercalate_splitOn]

/-- A text with a fence has more than one part. -/
theorem length_fenceParts_eq_one_iff (hmark : newline ∉ mark) :
    (fenceParts newline mark text).length = 1 ↔ FenceFree newline mark text := by
  constructor
  · intro h
    rw [fenceFree_iff_lines hmark]
    intro line hline hfence
    obtain ⟨before, after, hsplit⟩ := List.append_of_mem hline
    have hprefix : mark.isPrefixOf line = true := List.isPrefixOf_iff_prefix.mpr hfence
    rw [fenceParts, List.length_map, hsplit, List.splitOnP_append_cons _ _ hprefix,
      List.length_append] at h
    have hbefore := List.length_pos_of_ne_nil (List.splitOnP_ne_nil mark.isPrefixOf before)
    have hafter := List.length_pos_of_ne_nil (List.splitOnP_ne_nil mark.isPrefixOf after)
    omega
  · intro h
    rw [fenceParts_of_fenceFree hmark h, List.length_singleton]

/-! ## Cutting what was put together -/

/-- Bodies have one part each when none has a fence, and more parts otherwise. -/
theorem length_flatMap_fenceParts (hmark : newline ∉ mark) (bodies : List (List α)) :
    bodies.length ≤ (bodies.flatMap (fenceParts newline mark)).length ∧
      ((bodies.flatMap (fenceParts newline mark)).length = bodies.length ↔
        ∀ body ∈ bodies, FenceFree newline mark body) := by
  induction bodies with
  | nil => simp
  | cons body rest ih =>
      have hpos := List.length_pos_of_ne_nil (fenceParts_ne_nil newline mark body)
      rw [List.flatMap_cons, List.length_append, List.length_cons, List.forall_mem_cons,
        ← length_fenceParts_eq_one_iff hmark, ← ih.2]
      omega

theorem flatMap_fenceParts_of_fenceFree (hmark : newline ∉ mark) {bodies : List (List α)}
    (h : ∀ body ∈ bodies, FenceFree newline mark body) :
    bodies.flatMap (fenceParts newline mark) = bodies := by
  induction bodies with
  | nil => rfl
  | cons body rest ih =>
      rw [List.forall_mem_cons] at h
      rw [List.flatMap_cons, fenceParts_of_fenceFree hmark h.1, ih h.2, List.singleton_append]

/-- The bodies behind every second fence are the blocks, when no body has a fence. -/
theorem fencedBlocks_renderFenced (hmark : newline ∉ mark) {fences : List (List α × List α)}
    (hfences : ∀ fence ∈ fences, mark <+: fence.1 ∧ newline ∉ fence.1) {first : List α}
    (h : ∀ body ∈ first :: fences.map Prod.snd, FenceFree newline mark body) :
    fencedBlocks newline mark (renderFenced newline first fences) =
      everySecond (first :: fences.map Prod.snd) := by
  rw [fencedBlocks, fenceParts_renderFenced first hfences,
    flatMap_fenceParts_of_fenceFree hmark h]

/-- When the last fence closes a block, a fence in a body makes one more block. -/
theorem fenceFree_of_length_fencedBlocks (hmark : newline ∉ mark)
    {fences : List (List α × List α)}
    (hfences : ∀ fence ∈ fences, mark <+: fence.1 ∧ newline ∉ fence.1)
    (heven : fences.length % 2 = 0) {first : List α}
    (h : (fencedBlocks newline mark (renderFenced newline first fences)).length =
      fences.length / 2) :
    ∀ body ∈ first :: fences.map Prod.snd, FenceFree newline mark body := by
  obtain ⟨hle, hiff⟩ := length_flatMap_fenceParts hmark (first :: fences.map Prod.snd)
  rw [fencedBlocks, length_everySecond, fenceParts_renderFenced first hfences] at h
  rw [← hiff]
  rw [List.length_cons, List.length_map] at hle ⊢
  -- the last body is behind the last block, so one part more would be one block more
  omega

end Icflow.Foundation
