import Mathlib.Data.List.Induction
import Mathlib.Data.Set.Insert
import Mathlib.Logic.Relation

set_option autoImplicit false

/-!
# A finder that feeds a loop

A finder walks a store and reports items while a loop takes the reported items one by
one and changes the same store, command by command.  The finder may report an item at
any moment at which it matches, early or late, and more than once.  What it owes is
that an item that has matched all along is reported before it ends: `steady` are
these items.

A command that fails ends the loop after the commands that `recover` names for it.

`taken` is no part of the program: it remembers in which store each item was taken, so that
conditions on the steps of a run can be stated of the state it has reached.
-/

namespace Icflow.Foundation.FeedLoop

variable {σ π κ : Type}

/-- What the finder looks for and what the loop does. -/
structure Program (σ π κ : Type) where
  matching : σ → π → Prop
  body : σ → π → List κ
  exec : κ → σ → Option σ
  recover : κ → List κ

/-- The finder and the loop in progress. -/
structure State (σ π κ : Type) where
  store : σ
  /-- the commands left of the current item -/
  pending : List κ
  /-- the items reported and not yet taken -/
  queue : List π
  reported : Set π
  steady : Set π
  /-- the items taken so far, each with the store it was taken in -/
  taken : List (σ × π)
  ended : Bool
  failed : Bool

/-- Before the first step. -/
def State.start (program : Program σ π κ) (store : σ) : State σ π κ where
  store := store
  pending := []
  queue := []
  reported := ∅
  steady := {item | program.matching store item}
  taken := []
  ended := false
  failed := false

/-- One step of the finder or of the loop. -/
inductive Step (program : Program σ π κ) : State σ π κ → State σ π κ → Prop where
  | report (s : State σ π κ) (item : π) (hopen : s.ended = false)
      (hmatch : program.matching s.store item) :
      Step program s
        { s with queue := s.queue ++ [item], reported := insert item s.reported }
  | finish (s : State σ π κ) (hopen : s.ended = false) (hall : s.steady ⊆ s.reported) :
      Step program s { s with ended := true }
  | take (s : State σ π κ) (item : π) (rest : List π) (hidle : s.pending = [])
      (hqueue : s.queue = item :: rest) :
      Step program s
        { s with
          pending := program.body s.store item
          queue := rest
          taken := s.taken ++ [(s.store, item)] }
  | exec (s : State σ π κ) (command : κ) (rest : List κ) (store : σ)
      (hpending : s.pending = command :: rest) (hexec : program.exec command s.store = some store) :
      Step program s
        { s with
          store := store
          pending := rest
          steady := s.steady ∩ {item | program.matching store item} }
  | fail (s : State σ π κ) (command : κ) (rest : List κ)
      (hpending : s.pending = command :: rest) (hexec : program.exec command s.store = none) :
      Step program s
        { s with pending := program.recover command, queue := [], ended := true, failed := true }

/-- The states a loop may be stopped in. -/
def Reachable (program : Program σ π κ) (store : σ) (s : State σ π κ) : Prop :=
  Relation.ReflTransGen (Step program) (State.start program store) s

/-- Everything that was reported has been dealt with. -/
structure State.Finished (s : State σ π κ) : Prop where
  pending : s.pending = []
  queue : s.queue = []
  ended : s.ended = true

/-- The loop runs to its end, with or without a failure. -/
def Completes (program : Program σ π κ) (store store' : σ) : Prop :=
  ∃ s : State σ π κ, Reachable program store s ∧ s.Finished ∧ s.store = store'

/-- Every item that a command has run for was taken in a good store; the last one need not
have been, while all its commands are to come. -/
def State.GoodSoFar (program : Program σ π κ) (Good : σ × π → Prop) (s : State σ π κ) : Prop :=
  ∃ done, (∀ taken ∈ done, Good taken) ∧
    (s.taken = done ∨ ∃ item, s.taken = done ++ [(s.store, item)] ∧
      s.pending = program.body s.store item)

/-- Between two items all of them have been, if those without commands count as good. -/
theorem State.GoodSoFar.all {program : Program σ π κ} {Good : σ × π → Prop} {s : State σ π κ}
    (h : s.GoodSoFar program Good) (hidle : s.pending = [])
    (hnothing : ∀ item, program.body s.store item = [] → Good (s.store, item)) :
    ∀ taken ∈ s.taken, Good taken := by
  obtain ⟨done, hgood, hdone | ⟨item, htaken, hpending⟩⟩ := h
  · rw [hdone]
    exact hgood
  · intro taken hmem
    rw [htaken] at hmem
    rcases List.mem_append.mp hmem with hold | hnew
    · exact hgood taken hold
    · rw [List.mem_singleton.mp hnew]
      exact hnothing item (hpending.symm.trans hidle)

/-- What holds at the start and is kept by every step holds in every state. -/
theorem Reachable.invariant {program : Program σ π κ} {store : σ} {s : State σ π κ}
    (h : Reachable program store s) (Inv : State σ π κ → Prop)
    (hstart : Inv (State.start program store))
    (hstep : ∀ s s', Inv s → Step program s s' → Inv s') : Inv s := by
  induction h with
  | refl => exact hstart
  | tail _ step ih => exact hstep _ _ ih step

/-- What every step keeps whose item is taken in a good store holds in every state of a run
whose items were all taken in good stores. -/
theorem Reachable.invariant_of_taken {program : Program σ π κ} {store : σ} {s : State σ π κ}
    (h : Reachable program store s) (Good : σ × π → Prop) (Inv : State σ π κ → Prop)
    (hgood : ∀ taken ∈ s.taken, Good taken) (hstart : Inv (State.start program store))
    (hstep : ∀ s s', Inv s → Step program s s' → (∀ taken ∈ s'.taken, Good taken) → Inv s') :
    Inv s := by
  induction h with
  | refl => exact hstart
  | @tail s s' _ step ih =>
      have hbefore : ∀ taken ∈ s.taken, Good taken := by
        intro taken htaken
        apply hgood
        cases step with
        | take item rest _ _ => exact List.mem_append_left _ htaken
        | _ => exact htaken
      exact hstep _ _ (ih hbefore) step hgood

/-- Before the last item was taken there was a state without it. -/
theorem Reachable.before_take {program : Program σ π κ} {store store' : σ} {s : State σ π κ}
    {done : List (σ × π)} {item : π} (h : Reachable program store s)
    (htaken : s.taken = done ++ [(store', item)]) :
    ∃ s₀, Reachable program store s₀ ∧ s₀.taken = done ∧ s₀.store = store' ∧ s₀.pending = [] := by
  induction h with
  | refl => exact absurd htaken.symm (List.append_ne_nil_of_right_ne_nil done (List.cons_ne_nil _ _))
  | @tail s s' hreach step ih =>
      cases step with
      | take item' rest hidle _ =>
          obtain ⟨hdone, hlast⟩ := List.append_inj' htaken rfl
          exact ⟨s, hreach, hdone, congrArg Prod.fst (List.cons.inj hlast).1, hidle⟩
      | _ => exact ih htaken

/-- A state that is good so far is as one whose items were all taken in good stores, but for the
commands of an item that have not started. -/
theorem Reachable.of_goodSoFar {program : Program σ π κ} {store : σ} {s : State σ π κ}
    {Good : σ × π → Prop} (h : Reachable program store s) (hgood : s.GoodSoFar program Good) :
    ∃ s₀, Reachable program store s₀ ∧ (∀ taken ∈ s₀.taken, Good taken) ∧ s₀.store = s.store ∧
      (s₀.pending = s.pending ∨
        s₀.pending = [] ∧ ∃ item, s.pending = program.body s.store item) := by
  obtain ⟨done, hdone, htaken | ⟨item, htaken, hpending⟩⟩ := hgood
  · exact ⟨s, h, htaken ▸ hdone, rfl, Or.inl rfl⟩
  · obtain ⟨s₀, hreach, htaken₀, hstore, hidle⟩ := h.before_take htaken
    exact ⟨s₀, hreach, htaken₀ ▸ hdone, hstore, Or.inr ⟨hidle, item, hpending⟩⟩

/-- A loop that has not failed and whose finder has ended reported every steady item. -/
theorem Reachable.steady_reported {program : Program σ π κ} {store : σ} {s : State σ π κ}
    (h : Reachable program store s) (hended : s.ended = true) (hfailed : s.failed = false) :
    s.steady ⊆ s.reported := by
  have hinv : s.ended = true → s.failed = false → s.steady ⊆ s.reported := by
    refine h.invariant
      (fun s => s.ended = true → s.failed = false → s.steady ⊆ s.reported) ?_ ?_
    · intro hended
      cases hended
    · intro s s' ih step
      cases step with
      | report item hopen _ =>
          intro hended
          simp only [hopen] at hended
          cases hended
      | finish _ hall => exact fun _ _ => hall
      | take item rest _ _ => exact ih
      | exec command rest store _ _ =>
          intro hended hfailed
          exact Set.inter_subset_left.trans (ih hended hfailed)
      | fail command rest _ _ =>
          intro _ hfailed
          cases hfailed
  exact hinv hended hfailed

section Runs

variable {program : Program σ π κ} {store store' : σ} {s : State σ π κ}

/-- The commands left of the current item can be run one after the other. -/
theorem Reachable.exec_all {commands : List κ} (h : Reachable program store s)
    (hpending : s.pending = commands)
    (hrun : commands.foldlM (fun store command => program.exec command store) s.store =
      some store') :
    ∃ steady, Reachable program store
      { s with store := store', pending := [], steady := steady } := by
  induction commands generalizing s with
  | nil =>
      obtain rfl : s.store = store' := Option.some.inj hrun
      refine ⟨s.steady, ?_⟩
      rw [← hpending]
      exact h
  | cons command rest ih =>
      rw [List.foldlM_cons] at hrun
      obtain ⟨next, hexec, hrest⟩ := Option.bind_eq_some_iff.mp hrun
      have hnext : Reachable program store
          { s with
            store := next
            pending := rest
            steady := s.steady ∩ {item | program.matching next item} } :=
        h.tail (.exec s command rest next hpending hexec)
      obtain ⟨steady, hdone⟩ := ih hnext rfl hrest
      exact ⟨steady, hdone⟩

/-- A run over a single item. -/
theorem reachable_of_single (item : π) (hmatch : program.matching store item)
    (hsingle : ∀ other, program.matching store other → other = item)
    (hrun : (program.body store item).foldlM (fun store command => program.exec command store)
      store = some store') :
    ∃ s, Reachable program store s ∧ s.Finished ∧ s.failed = false ∧ s.store = store' ∧
      s.taken = [(store, item)] := by
  have hreport : Reachable program store
      { State.start program store with queue := [item], reported := insert item ∅ } :=
    .single (.report (State.start program store) item rfl hmatch)
  have hfinish := hreport.tail (.finish _ rfl fun other hother =>
    Set.mem_insert_iff.mpr (Or.inl (hsingle other hother)))
  have htake := hfinish.tail (.take _ item [] rfl rfl)
  obtain ⟨steady, hdone⟩ := Reachable.exec_all htake rfl hrun
  exact ⟨_, hdone, ⟨rfl, rfl, rfl⟩, rfl, rfl, rfl⟩

/-- A run over no item. -/
theorem reachable_of_none (hnone : ∀ item, ¬ program.matching store item) :
    ∃ s, Reachable program store s ∧ s.Finished ∧ s.failed = false ∧ s.store = store ∧
      s.taken = [] := by
  have hfinish : Reachable program store { State.start program store with ended := true } :=
    .single (.finish (State.start program store) rfl fun item hitem => absurd hitem (hnone item))
  exact ⟨_, hfinish, ⟨rfl, rfl, rfl⟩, rfl, rfl, rfl⟩

theorem completes_of_single (item : π) (hmatch : program.matching store item)
    (hsingle : ∀ other, program.matching store other → other = item)
    (hrun : (program.body store item).foldlM (fun store command => program.exec command store)
      store = some store') : Completes program store store' := by
  obtain ⟨s, hreach, hfinished, _, hstore, _⟩ := reachable_of_single item hmatch hsingle hrun
  exact ⟨s, hreach, hfinished, hstore⟩

/-- The finder reports some of the matching items, one after the other. -/
theorem reachable_report (items : List π) (hmatch : ∀ item ∈ items, program.matching store item) :
    Reachable program store
      { State.start program store with queue := items, reported := {item | item ∈ items} } := by
  induction items using List.reverseRecOn with
  | nil =>
      have hnone : {item : π | item ∈ ([] : List π)} = ∅ :=
        Set.eq_empty_of_forall_notMem fun _ => List.not_mem_nil
      rw [hnone]
      exact .refl
  | append_singleton items item ih =>
      have hitems := ih fun other hother => hmatch other (List.mem_append_left _ hother)
      have hmore : {other | other ∈ items ++ [item]} = insert item {other | other ∈ items} := by
        ext other
        simp only [List.mem_append, List.mem_singleton, Set.mem_ofPred_eq, Set.mem_insert_iff, or_comm]
      rw [hmore]
      exact hitems.tail (.report _ item rfl
        (hmatch item (List.mem_append_right _ (List.mem_singleton_self item))))

/-- Items without commands are taken one after the other. -/
theorem Reachable.take_idle {items : List π} (h : Reachable program store s)
    (hpending : s.pending = []) (hqueue : s.queue = items)
    (hidle : ∀ item ∈ items, program.body s.store item = []) :
    ∃ taken, Reachable program store { s with pending := [], queue := [], taken := taken } := by
  induction items generalizing s with
  | nil =>
      refine ⟨s.taken, ?_⟩
      rw [← hpending, ← hqueue]
      exact h
  | cons item rest ih =>
      obtain ⟨hitem, hrest⟩ := List.forall_mem_cons.mp hidle
      have htake := h.tail (.take s item rest hpending hqueue)
      obtain ⟨taken, htaken⟩ := ih htake hitem rfl hrest
      exact ⟨taken, htaken⟩

/-- A loop that finds nothing to do ends as it began. -/
theorem completes_of_idle (items : List π)
    (hmatch : ∀ item, program.matching store item ↔ item ∈ items)
    (hidle : ∀ item ∈ items, program.body store item = []) : Completes program store store := by
  have hreport := reachable_report items fun item => (hmatch item).mpr
  have hfinish := hreport.tail (.finish _ rfl fun item => (hmatch item).mp)
  obtain ⟨taken, htaken⟩ := Reachable.take_idle hfinish rfl rfl hidle
  exact ⟨_, htaken, ⟨rfl, rfl, rfl⟩, rfl⟩

end Runs

end Icflow.Foundation.FeedLoop
