import Mathlib.Data.List.Flatten
import Mathlib.Data.List.Perm.Basic

set_option autoImplicit false

/-!
# Taking turns over several queues

One pass takes the head of every queue that still has one, in the order of the queues;
passes follow until all queues are empty.  Nothing is lost and nothing is taken twice
(`roundRobin_perm`).
-/

namespace Icflow.Foundation

variable {α : Type}

/-- The heads one pass takes. -/
def heads (queues : List (List α)) : List α := queues.filterMap List.head?

/-- The queues after a pass. -/
def tails (queues : List (List α)) : List (List α) := queues.map List.tail

@[simp] theorem heads_nil : heads ([] : List (List α)) = [] := rfl

@[simp] theorem heads_nil_cons (queues : List (List α)) : heads ([] :: queues) = heads queues :=
  List.filterMap_cons_none rfl

@[simp] theorem heads_cons_cons (head : α) (tail : List α) (queues : List (List α)) :
    heads ((head :: tail) :: queues) = head :: heads queues :=
  List.filterMap_cons_some rfl

@[simp] theorem tails_nil : tails ([] : List (List α)) = [] := rfl

@[simp] theorem tails_cons (queue : List α) (queues : List (List α)) :
    tails (queue :: queues) = queue.tail :: tails queues := rfl

/-- What a pass takes and what it leaves is all there was. -/
theorem heads_append_tails_perm (queues : List (List α)) :
    (heads queues ++ (tails queues).flatten).Perm queues.flatten := by
  induction queues with
  | nil => exact List.Perm.refl _
  | cons queue queues ih =>
      cases queue with
      | nil => simpa using ih
      | cons head tail =>
          rw [heads_cons_cons, tails_cons, List.tail_cons, List.flatten_cons, List.flatten_cons,
            List.cons_append, List.cons_append, List.perm_cons]
          have hmove : (heads queues ++ (tail ++ (tails queues).flatten)).Perm
              (tail ++ (heads queues ++ (tails queues).flatten)) :=
            List.perm_append_comm_assoc _ _ _
          exact hmove.trans (ih.append_left tail)

theorem heads_ne_nil {queues : List (List α)} (h : queues.all List.isEmpty = false) :
    heads queues ≠ [] := by
  obtain ⟨queue, hqueue, hne⟩ := List.all_eq_false.mp h
  cases queue with
  | nil => simp at hne
  | cons head tail =>
      exact List.ne_nil_of_mem (List.mem_filterMap.mpr ⟨head :: tail, hqueue, rfl⟩)

theorem tails_length_lt {queues : List (List α)} (h : queues.all List.isEmpty = false) :
    (tails queues).flatten.length < queues.flatten.length := by
  have hperm := (heads_append_tails_perm queues).length_eq
  have hpos := List.length_pos_of_ne_nil (heads_ne_nil h)
  rw [List.length_append] at hperm
  omega

/-- Pass after pass until every queue is empty. -/
def roundRobin (queues : List (List α)) : List α :=
  if queues.all List.isEmpty then [] else heads queues ++ roundRobin (tails queues)
termination_by queues.flatten.length
decreasing_by exact tails_length_lt (Bool.eq_false_iff.mpr ‹_›)

/-- Every entry of every queue gets its turn, once. -/
theorem roundRobin_perm (queues : List (List α)) :
    (roundRobin queues).Perm queues.flatten := by
  induction queues using roundRobin.induct with
  | case1 queues h =>
      have hempty : queues.flatten = [] := by
        rw [List.flatten_eq_nil_iff]
        intro queue hqueue
        exact List.isEmpty_iff.mp (List.all_eq_true.mp h queue hqueue)
      rw [roundRobin, if_pos h, hempty]
  | case2 queues h ih =>
      rw [roundRobin, if_neg h]
      exact (ih.append_left (heads queues)).trans (heads_append_tails_perm queues)

/-- Turns do not depend on what the entries are. -/
theorem map_roundRobin {β : Type} (f : α → β) (queues : List (List α)) :
    (roundRobin queues).map f = roundRobin (queues.map (List.map f)) := by
  have hheads (queues : List (List α)) : (heads queues).map f = heads (queues.map (List.map f)) := by
    rw [heads, heads, List.map_filterMap, List.filterMap_map]
    refine List.filterMap_congr fun queue _ => ?_
    rw [Function.comp_apply, List.head?_map]
  have htails (queues : List (List α)) :
      (tails queues).map (List.map f) = tails (queues.map (List.map f)) := by
    rw [tails, tails, List.map_map, List.map_map]
    refine List.map_congr_left fun queue _ => ?_
    rw [Function.comp_apply, Function.comp_apply, List.map_tail]
  have hempty (queues : List (List α)) :
      (queues.map (List.map f)).all List.isEmpty = queues.all List.isEmpty := by
    rw [List.all_map]
    congr 1
    funext queue
    rw [Function.comp_apply, List.isEmpty_map]
  induction queues using roundRobin.induct with
  | case1 queues h =>
      have hmapped := (hempty queues).trans h
      rw [roundRobin, if_pos h]
      exact ((roundRobin.eq_1 _).trans (if_pos hmapped)).symm
  | case2 queues h ih =>
      have hmapped : ¬ (queues.map (List.map f)).all List.isEmpty = true := by
        rwa [hempty]
      rw [roundRobin, if_neg h, List.map_append, ih, hheads, htails]
      exact ((roundRobin.eq_1 _).trans (if_neg hmapped)).symm

theorem mem_roundRobin {queues : List (List α)} {a : α} :
    a ∈ roundRobin queues ↔ ∃ queue ∈ queues, a ∈ queue := by
  rw [(roundRobin_perm queues).mem_iff, List.mem_flatten]

/-! ## Queues told apart by a label -/

section Labelled

variable {ι : Type} [DecidableEq ι] {label : α → ι} {keys : List ι} {queue : ι → List α} {key : ι}

omit [DecidableEq ι] in
theorem tails_map (keys : List ι) (queue : ι → List α) :
    tails (keys.map queue) = keys.map fun key => (queue key).tail := by
  rw [tails, List.map_map]
  rfl

/-- A pass takes nothing with the label of no queue. -/
theorem filter_heads_of_not_mem (hlabel : ∀ key, ∀ a ∈ queue key, label a = key)
    (hkey : key ∉ keys) : (heads (keys.map queue)).filter (fun a => label a == key) = [] := by
  rw [List.filter_eq_nil_iff]
  intro a ha
  obtain ⟨taken, htaken, hhead⟩ := List.mem_filterMap.mp ha
  obtain ⟨other, hother, rfl⟩ := List.mem_map.mp htaken
  have hlabelled := hlabel other a (List.mem_of_mem_head? hhead)
  rw [beq_iff_eq, hlabelled]
  rintro rfl
  exact hkey hother

/-- A pass takes the head of the queue with a label. -/
theorem filter_heads (hnodup : keys.Nodup) (hlabel : ∀ key, ∀ a ∈ queue key, label a = key)
    (hkey : key ∈ keys) :
    (heads (keys.map queue)).filter (fun a => label a == key) = (queue key).head?.toList := by
  induction keys with
  | nil => cases hkey
  | cons first rest ih =>
      obtain ⟨hnew, hrest⟩ := List.nodup_cons.mp hnodup
      have hfirst : heads ((first :: rest).map queue) =
          (queue first).head?.toList ++ heads (rest.map queue) := by
        rw [List.map_cons]
        cases queue first with
        | nil => rw [heads_nil_cons]; rfl
        | cons head tail => rw [heads_cons_cons]; rfl
      rw [hfirst, List.filter_append]
      by_cases heq : key = first
      · subst heq
        have hown : (queue key).head?.toList.filter (fun a => label a == key) =
            (queue key).head?.toList := by
          rw [List.filter_eq_self]
          intro a ha
          rw [beq_iff_eq]
          exact hlabel key a (List.mem_of_mem_head? (Option.mem_toList.mp ha))
        rw [hown, filter_heads_of_not_mem hlabel hnew, List.append_nil]
      · have hother : (queue first).head?.toList.filter (fun a => label a == key) = [] := by
          rw [List.filter_eq_nil_iff]
          intro a ha
          rw [beq_iff_eq, hlabel first a (List.mem_of_mem_head? (Option.mem_toList.mp ha))]
          exact Ne.symm heq
        rw [hother, List.nil_append]
        exact ih hrest ((List.mem_cons.mp hkey).resolve_left heq)

theorem head?_toList_append_tail (items : List α) : items.head?.toList ++ items.tail = items := by
  cases items <;> rfl

/-- Every queue keeps its own order. -/
theorem filter_roundRobin (hnodup : keys.Nodup) (hlabel : ∀ key, ∀ a ∈ queue key, label a = key)
    (hkey : key ∈ keys) :
    (roundRobin (keys.map queue)).filter (fun a => label a == key) = queue key := by
  generalize hqueues : keys.map queue = queues
  induction queues using roundRobin.induct generalizing queue with
  | case1 queues h =>
      rw [roundRobin, if_pos h, List.filter_nil]
      have hmem : queue key ∈ queues := by
        rw [← hqueues]
        exact List.mem_map_of_mem hkey
      exact (List.isEmpty_iff.mp (List.all_eq_true.mp h _ hmem)).symm
  | case2 queues h ih =>
      subst hqueues
      have htail : ∀ key, ∀ a ∈ (queue key).tail, label a = key := fun key a ha =>
        hlabel key a (List.mem_of_mem_tail ha)
      rw [roundRobin, if_neg h, List.filter_append, filter_heads hnodup hlabel hkey,
        ih htail (tails_map keys queue).symm, head?_toList_append_tail]

/-- As long as a queue has not been used up, no other has had more than one turn more. -/
theorem balanced_of_prefix (hnodup : keys.Nodup) (hlabel : ∀ key, ∀ a ∈ queue key, label a = key)
    {other : ι} (hkey : key ∈ keys) (hother : other ∈ keys) {before : List α}
    (hbefore : before <+: roundRobin (keys.map queue)) :
    before.filter (fun a => label a == other) = queue other ∨
      (before.filter fun a => label a == key).length ≤
        (before.filter fun a => label a == other).length + 1 := by
  generalize hqueues : keys.map queue = queues at hbefore
  induction queues using roundRobin.induct generalizing queue before with
  | case1 queues h =>
      rw [roundRobin, if_pos h, List.prefix_nil] at hbefore
      simp [hbefore]
  | case2 queues h ih =>
      subst hqueues
      have htail : ∀ key, ∀ a ∈ (queue key).tail, label a = key := fun key a ha =>
        hlabel key a (List.mem_of_mem_tail ha)
      have hpass : ∀ {key}, key ∈ keys →
          ((heads (keys.map queue)).filter fun a => label a == key).length ≤ 1 := by
        intro key hkey
        rw [filter_heads hnodup hlabel hkey]
        cases queue key <;> simp
      rw [roundRobin, if_neg h] at hbefore
      rcases List.prefix_or_prefix_of_prefix hbefore (List.prefix_append _ _) with
        hfirst | ⟨later, rfl⟩
      · right
        have hle := (hfirst.sublist.filter fun a => label a == key).length_le
        have hone := hpass hkey
        omega
      · rw [List.prefix_append_right_inj] at hbefore
        have hlater := ih htail (tails_map keys queue).symm hbefore
        have hone := hpass hkey
        rw [List.filter_append, List.filter_append, filter_heads hnodup hlabel hother]
        cases hqueue : queue other with
        | nil =>
            rw [hqueue] at hlater
            left
            have hsublist := (hbefore.sublist.filter fun a => label a == other)
            rw [tails_map, filter_roundRobin hnodup htail hother, hqueue] at hsublist
            exact List.sublist_nil.mp hsublist
        | cons head tail =>
            rw [hqueue, List.tail_cons] at hlater
            rcases hlater with hall | hle
            · left
              rw [hall]
              rfl
            · right
              simp only [List.length_append, List.head?_cons, Option.toList_some,
                List.length_singleton]
              omega

/-- Items sorted into queues by their label. -/
theorem flatten_filter_perm (hnodup : keys.Nodup) {items : List α}
    (hall : ∀ a ∈ items, label a ∈ keys) :
    ((keys.map fun key => items.filter fun a => label a == key).flatten).Perm items := by
  induction items with
  | nil =>
      have hempty : (keys.map fun key => ([] : List α).filter fun a => label a == key).flatten = [] := by
        simp
      rw [hempty]
  | cons a rest ih =>
      obtain ⟨hfirst, hrest⟩ := List.forall_mem_cons.mp hall
      have hperm := ih hrest
      obtain ⟨before, after, rfl⟩ := List.append_of_mem hfirst
      have hother : ∀ key, key ≠ label a → (a :: rest).filter (fun a => label a == key) =
          rest.filter fun a => label a == key := by
        intro key hkey
        exact List.filter_cons_of_neg (by simpa using Ne.symm hkey)
      have hown : (a :: rest).filter (fun b => label b == label a) =
          a :: rest.filter fun b => label b == label a := List.filter_cons_of_pos (by simp)
      obtain ⟨_, hafter, happart⟩ := List.nodup_append.mp hnodup
      have hbefore : before.map (fun key => (a :: rest).filter fun a => label a == key) =
          before.map fun key => rest.filter fun a => label a == key :=
        List.map_congr_left fun key hkey => hother key (happart key hkey _ List.mem_cons_self)
      have hlater : after.map (fun key => (a :: rest).filter fun a => label a == key) =
          after.map fun key => rest.filter fun a => label a == key := by
        refine List.map_congr_left fun key hkey => hother key ?_
        rintro rfl
        exact (List.nodup_cons.mp hafter).1 hkey
      rw [List.map_append, List.map_cons, hbefore, hlater, hown, List.flatten_append,
        List.flatten_cons, List.cons_append]
      refine List.perm_middle.trans (List.Perm.cons a ?_)
      rwa [List.map_append, List.map_cons, List.flatten_append, List.flatten_cons] at hperm

end Labelled

end Icflow.Foundation
