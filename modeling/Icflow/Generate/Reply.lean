import Icflow.Generate.Loads

set_option autoImplicit false

/-!
# Interpreting the reply of the API

What is done with the JSON value of a successful HTTP reply: the check of its status,
`response_output_text`, `json.loads` of the text that is found and
`validate_generated_suite`.  Every Python operation on a value of the wrong shape raises
here what it raises there.
-/

namespace Icflow.Generate

open Icflow.Foundation

/-- What interpreting a reply can raise. -/
inductive Raised where
  /-- `Responses API returned status …`, a `RuntimeError` -/
  | status
  /-- `Model refused the request: …`, a `RuntimeError` -/
  | refused
  /-- `The Responses API result did not contain output text.`, a `RuntimeError` -/
  | noOutputText
  /-- a `JSONDecodeError` of `json.loads`, or the `RecursionError` of a deep nesting -/
  | notJson
  /-- a `ValueError` of `validate_generated_suite` -/
  | invalidSuite (failure : Failure)
  /-- `.get` of a value that is no dictionary -/
  | attributeError
  /-- a value that cannot be iterated over, or that a set cannot look up -/
  | typeError
  deriving DecidableEq

/-- `except (OSError, RuntimeError, ValueError, json.JSONDecodeError)` at the entry point -/
def Raised.reported : Raised → Bool
  | .attributeError | .typeError => false
  | _ => true

/-- `str.isspace`, of one code point -/
def isSpace (point : Nat) : Bool :=
  (9 ≤ point && point ≤ 13) || (28 ≤ point && point ≤ 32) || point == 133 || point == 160 ||
    point == 5760 || (8192 ≤ point && point ≤ 8202) || point == 8232 || point == 8233 ||
    point == 8239 || point == 8287 || point == 12288

/-- What a `for` statement goes through; `none` is a `TypeError`.  A string yields its
characters and a dictionary its keys. -/
def iterate : Json Nat → Option (List (Json Nat))
  | .arr elements => some elements
  | .str value => some (value.map fun point => .str [point])
  | .obj members => some ((members.map Prod.fst).eraseDups.map .str)
  | .null | .bool _ | .num _ => none

/-- The inner loop of `response_output_text`: the text of the first output text, unless a
refusal comes before it. -/
def contentText : List (Json Nat) → Except Raised (Option Name)
  | [] => .ok none
  | content :: rest =>
      match dictMembers content with
      | none => contentText rest
      | some members =>
          if getString members (text "type") = some (text "refusal") then .error .refused
          else if getString members (text "type") = some (text "output_text") then
            match getString members (text "text") with
            | some value => .ok (some value)
            | none => contentText rest
          else contentText rest

/-- The outer loop of `response_output_text`. -/
def itemsText : List (Json Nat) → Except Raised Name
  | [] => .error .noOutputText
  | item :: rest =>
      match dictMembers item with
      | none => itemsText rest
      | some members =>
          if getString members (text "type") ≠ some (text "message") then itemsText rest
          else
            match iterate ((getField members (text "content")).getD (.arr [])) with
            | none => .error .typeError
            | some contents =>
                match contentText contents with
                | .error raised => .error raised
                | .ok (some value) => .ok value
                | .ok none => itemsText rest

/-- `response_output_text` -/
def responseOutputText (response : List (Name × Json Nat)) : Except Raised Name :=
  match (getString response (text "output_text")).filter fun direct => !direct.all isSpace with
  | some direct => .ok direct
  | none =>
      match iterate ((getField response (text "output")).getD (.arr [])) with
      | none => .error .typeError
      | some items => itemsText items

/-- `response.get("status") not in {None, "completed"}` -/
def checkStatus (response : List (Name × Json Nat)) : Except Raised Unit :=
  match getField response (text "status") with
  | none | some .null => .ok ()
  | some (.str value) => if value = text "completed" then .ok () else .error .status
  | some (.bool _) | some (.num _) => .error .status
  | some (.arr _) | some (.obj _) => .error .typeError

/-- From the reply to the entries of the accepted suite.  `decode` is `json.loads`, with
`none` for what it raises. -/
def interpretReply (decode : Name → Option (Json Nat)) (body : Json Nat) :
    Except Raised (List FileEntry) :=
  match dictMembers body with
  | none => .error .attributeError
  | some response =>
      match checkStatus response with
      | .error raised => .error raised
      | .ok () =>
          match responseOutputText response with
          | .error raised => .error raised
          | .ok value =>
              match decode value with
              | none => .error .notJson
              | some generated =>
                  match validateGeneratedSuite generated with
                  | .error failure => .error (.invalidSuite failure)
                  | .ok entries => .ok entries

/-! ## The shapes that are handled -/

/-- Either a result or an error that the entry point reports. -/
def Answered {α : Type} (result : Except Raised α) : Prop :=
  ∀ raised, result = .error raised → raised.reported = true

/-- A value that a `for` statement accepts. -/
def Iterable : Json Nat → Prop
  | .arr _ | .str _ | .obj _ => True
  | .null | .bool _ | .num _ => False

/-- A value that a set can look up. -/
def Hashable : Json Nat → Prop
  | .arr _ | .obj _ => False
  | .null | .bool _ | .num _ | .str _ => True

/-- A refusal, or an output text with a text. -/
def Final (content : Json Nat) : Prop :=
  ∃ members, content = .obj members ∧
    (getString members (text "type") = some (text "refusal") ∨
      getString members (text "type") = some (text "output_text") ∧
        ∃ value, getString members (text "text") = some value)

/-- A message with these members. -/
def IsMessage (item : Json Nat) (members : List (Name × Json Nat)) : Prop :=
  item = .obj members ∧ getString members (text "type") = some (text "message")

/-- A message whose content cannot be gone through. -/
def Malformed (item : Json Nat) : Prop :=
  ∃ members content, IsMessage item members ∧
    getField members (text "content") = some content ∧ ¬ Iterable content

/-- A message with a refusal or a text, which is the last one that is looked at. -/
def Ends (item : Json Nat) : Prop :=
  ∃ members contents, IsMessage item members ∧
    getField members (text "content") = some (.arr contents) ∧ ∃ content ∈ contents, Final content

/-- Before every malformed message there is one that ends the loop. -/
def ItemsGuarded (items : List (Json Nat)) : Prop :=
  ∀ before item after, items = before ++ item :: after → Malformed item →
    ∃ earlier ∈ before, Ends earlier

/-- `response.get("status")` -/
def statusOf (response : List (Name × Json Nat)) : Json Nat :=
  (getField response (text "status")).getD .null

/-- An `output_text` that is used as it is. -/
def HasDirectText (response : List (Name × Json Nat)) : Prop :=
  ∃ direct, getString response (text "output_text") = some direct ∧
    ∃ point ∈ direct, isSpace point = false

/-- A response of which every part that is looked at has a shape the code handles. -/
structure Guarded (response : List (Name × Json Nat)) : Prop where
  status : Hashable (statusOf response)
  output : statusOf response = .null ∨ statusOf response = .str (text "completed") →
    ¬ HasDirectText response → ∀ output, getField response (text "output") = some output →
      Iterable output ∧ ∀ items, output = .arr items → ItemsGuarded items

/-! ## The loops -/

theorem iterate_eq_none_iff {value : Json Nat} : iterate value = none ↔ ¬ Iterable value := by
  cases value <;> simp [iterate, Iterable]

/-- Objects are only met in an array. -/
theorem eq_arr_of_obj_mem {value : Json Nat} {elements : List (Json Nat)}
    (h : iterate value = some elements) {members : List (Name × Json Nat)}
    (hmem : .obj members ∈ elements) : value = .arr elements := by
  cases value with
  | arr inner => simpa [iterate] using h
  | str characters =>
      cases h
      simp at hmem
  | obj inner =>
      cases h
      simp at hmem
  | null => cases h
  | bool b => cases h
  | num n => cases h

theorem dictMembers_eq_some_iff {value : Json Nat} {members : List (Name × Json Nat)} :
    dictMembers value = some members ↔ value = .obj members := by
  cases value <;> simp [dictMembers]

/-- A content that is not final is passed over. -/
theorem contentText_of_not_final {content : Json Nat} (h : ¬ Final content) (rest : List (Json Nat)) :
    contentText (content :: rest) = contentText rest := by
  rw [contentText]
  cases hmembers : dictMembers content with
  | none => rfl
  | some members =>
      obtain ⟨hrefusal, houtput⟩ := not_or.mp fun hfinal =>
        h ⟨members, dictMembers_eq_some_iff.mp hmembers, hfinal⟩
      refine (if_neg hrefusal).trans ?_
      by_cases htype : getString members (text "type") = some (text "output_text")
      · rw [if_pos htype]
        cases hvalue : getString members (text "text") with
        | some value => exact absurd ⟨htype, value, hvalue⟩ houtput
        | none => rfl
      · exact if_neg htype

theorem contentText_of_final {content : Json Nat} (h : Final content) (rest : List (Json Nat)) :
    contentText (content :: rest) = .error .refused ∨
      ∃ value, contentText (content :: rest) = .ok (some value) := by
  obtain ⟨members, rfl, hfinal⟩ := h
  have hstep := contentText.eq_2 (.obj members) rest
  simp only [dictMembers] at hstep
  by_cases hrefusal : getString members (text "type") = some (text "refusal")
  · exact Or.inl (hstep.trans (if_pos hrefusal))
  · obtain ⟨htype, value, hvalue⟩ := hfinal.resolve_left hrefusal
    rw [if_neg hrefusal, if_pos htype, hvalue] at hstep
    exact Or.inr ⟨value, hstep⟩

/-- The inner loop ends with nothing exactly when it meets nothing final. -/
theorem contentText_cases (contents : List (Json Nat)) :
    (contentText contents = .ok none ∧ ∀ content ∈ contents, ¬ Final content) ∨
      (∃ content ∈ contents, Final content) ∧
        (contentText contents = .error .refused ∨
          ∃ value, contentText contents = .ok (some value)) := by
  induction contents with
  | nil => exact Or.inl ⟨rfl, List.forall_mem_nil _⟩
  | cons content rest ih =>
      by_cases hfinal : Final content
      · exact Or.inr ⟨⟨content, List.mem_cons_self, hfinal⟩, contentText_of_final hfinal rest⟩
      · rw [contentText_of_not_final hfinal, List.forall_mem_cons, List.exists_mem_cons_iff,
          or_iff_right hfinal, and_iff_right hfinal]
        exact ih

section Message

variable {item : Json Nat} {members : List (Name × Json Nat)}

/-- An item that is no message is passed over. -/
theorem itemsText_of_not_isMessage (h : ∀ members, ¬ IsMessage item members) (rest : List (Json Nat)) :
    itemsText (item :: rest) = itemsText rest := by
  rw [itemsText]
  cases hmembers : dictMembers item with
  | none => rfl
  | some members =>
      have hobj := dictMembers_eq_some_iff.mp hmembers
      exact if_pos fun htype => h members ⟨hobj, htype⟩

theorem itemsText_of_isMessage (h : IsMessage item members) (rest : List (Json Nat)) :
    itemsText (item :: rest) =
      match iterate ((getField members (text "content")).getD (.arr [])) with
      | none => .error .typeError
      | some contents =>
          match contentText contents with
          | .error raised => .error raised
          | .ok (some value) => .ok value
          | .ok none => itemsText rest := by
  rw [itemsText, dictMembers_eq_some_iff.mpr h.1]
  exact if_neg (not_not_intro h.2)

theorem malformed_iff (h : IsMessage item members) :
    Malformed item ↔ iterate ((getField members (text "content")).getD (.arr [])) = none := by
  have hmalformed : Malformed item ↔ ∃ content,
      getField members (text "content") = some content ∧ ¬ Iterable content := by
    simp [Malformed, IsMessage, h.1, h.2]
  rw [hmalformed]
  cases getField members (text "content") with
  | none => simp [iterate]
  | some content => simp [iterate_eq_none_iff]

/-- Only a content that is an array has something final. -/
theorem ends_iff (h : IsMessage item members) {contents : List (Json Nat)}
    (hiterate : iterate ((getField members (text "content")).getD (.arr [])) = some contents) :
    Ends item ↔ ∃ content ∈ contents, Final content := by
  have hends : Ends item ↔ ∃ contents, getField members (text "content") = some (.arr contents) ∧
      ∃ content ∈ contents, Final content := by
    simp [Ends, IsMessage, h.1, h.2]
  rw [hends]
  constructor
  · rintro ⟨inner, hfield, hfinal⟩
    rw [hfield] at hiterate
    cases hiterate
    exact hfinal
  · rintro ⟨content, hmem, hfinal⟩
    refine ⟨contents, ?_, content, hmem, hfinal⟩
    obtain ⟨inner, rfl, _⟩ := hfinal
    have harr := eq_arr_of_obj_mem hiterate hmem
    cases hfield : getField members (text "content") with
    | none =>
        rw [hfield] at hiterate
        cases hiterate
        cases hmem
    | some value =>
        rw [hfield, Option.getD_some] at harr
        rw [harr]

end Message

/-- One item of the outer loop. -/
theorem itemsText_cons (item : Json Nat) (rest : List (Json Nat)) :
    Malformed item ∧ itemsText (item :: rest) = .error .typeError ∨
      ¬ Malformed item ∧ Ends item ∧ Answered (itemsText (item :: rest)) ∨
      ¬ Malformed item ∧ ¬ Ends item ∧ itemsText (item :: rest) = itemsText rest := by
  by_cases hmessage : ∃ members, IsMessage item members
  · obtain ⟨members, hmessage⟩ := hmessage
    rw [malformed_iff hmessage, itemsText_of_isMessage hmessage]
    cases hiterate : iterate ((getField members (text "content")).getD (.arr [])) with
    | none => exact Or.inl ⟨rfl, rfl⟩
    | some contents =>
        have hsome : ¬ some contents = none := Option.some_ne_none contents
        rw [ends_iff hmessage hiterate]
        dsimp only
        rcases contentText_cases contents with ⟨heq, hnone⟩ | ⟨hfinal, heq | ⟨value, heq⟩⟩
        · rw [heq]
          exact Or.inr (Or.inr ⟨hsome, fun ⟨content, hmem, h⟩ => hnone content hmem h, rfl⟩)
        · rw [heq]
          refine Or.inr (Or.inl ⟨hsome, hfinal, fun raised hraised => ?_⟩)
          cases hraised
          rfl
        · rw [heq]
          refine Or.inr (Or.inl ⟨hsome, hfinal, fun raised hraised => ?_⟩)
          cases hraised
  · have hnot := not_exists.mp hmessage
    exact Or.inr (Or.inr ⟨fun ⟨members, _, h, _⟩ => hnot members h,
      fun ⟨members, _, h, _⟩ => hnot members h, itemsText_of_not_isMessage hnot rest⟩)

theorem itemsGuarded_cons {item : Json Nat} {rest : List (Json Nat)} :
    ItemsGuarded (item :: rest) ↔ ¬ Malformed item ∧ (Ends item ∨ ItemsGuarded rest) := by
  constructor
  · intro h
    have hfirst : ¬ Malformed item := by
      intro hmalformed
      obtain ⟨earlier, hmem, _⟩ := h [] item rest rfl hmalformed
      cases hmem
    refine ⟨hfirst, Classical.or_iff_not_imp_left.mpr fun hends => ?_⟩
    intro before inner after hsplit hmalformed
    obtain ⟨earlier, hmem, hearlier⟩ :=
      h (item :: before) inner after (by rw [hsplit, List.cons_append]) hmalformed
    rcases List.mem_cons.mp hmem with heq | hlater
    · exact absurd (heq ▸ hearlier) hends
    · exact ⟨earlier, hlater, hearlier⟩
  · rintro ⟨hfirst, hrest⟩ before inner after hsplit hmalformed
    cases before with
    | nil => exact absurd ((List.cons.inj hsplit).1 ▸ hmalformed) hfirst
    | cons first before =>
        obtain ⟨rfl, hlater⟩ := List.cons.inj hsplit
        rcases hrest with hends | hrest
        · exact ⟨item, List.mem_cons_self, hends⟩
        · obtain ⟨earlier, hmem, hearlier⟩ := hrest before inner after hlater hmalformed
          exact ⟨earlier, List.mem_cons_of_mem item hmem, hearlier⟩

/-- The outer loop, over any list of items. -/
theorem answered_itemsText_iff (items : List (Json Nat)) :
    Answered (itemsText items) ↔ ItemsGuarded items := by
  induction items with
  | nil =>
      refine iff_of_true ?_ ?_
      · intro raised hraised
        cases hraised
        rfl
      · intro before item after hsplit
        simp at hsplit
  | cons item rest ih =>
      rw [itemsGuarded_cons]
      rcases itemsText_cons item rest with ⟨hmalformed, heq⟩ | ⟨hnot, hends, hanswered⟩ |
        ⟨hnot, hends, heq⟩
      · refine iff_of_false ?_ fun h => h.1 hmalformed
        intro h
        cases h .typeError heq
      · exact iff_of_true hanswered ⟨hnot, Or.inl hends⟩
      · rw [heq, ih, and_iff_right hnot, or_iff_right hends]

/-! ## The whole interpretation -/

/-- Only the items of an array matter. -/
theorem itemsGuarded_iterate {output : Json Nat} {elements : List (Json Nat)}
    (h : iterate output = some elements) :
    ItemsGuarded elements ↔ ∀ items, output = .arr items → ItemsGuarded items := by
  constructor
  · intro hguarded items hitems
    rw [hitems] at h
    cases h
    exact hguarded
  · intro hguarded before item after hsplit hmalformed
    obtain ⟨members, _, ⟨hobj, _⟩, _⟩ := id hmalformed
    have hmem : item ∈ elements := by
      rw [hsplit]
      exact List.mem_append_right before List.mem_cons_self
    rw [hobj] at hmem
    exact hguarded elements (eq_arr_of_obj_mem h hmem) before item after hsplit hmalformed

theorem directText_eq_some_iff {response : List (Name × Json Nat)} :
    (∃ direct, (getString response (text "output_text")).filter
        (fun direct => !direct.all isSpace) = some direct) ↔ HasDirectText response := by
  simp [Option.filter_eq_some_iff, HasDirectText]

theorem answered_responseOutputText_iff {response : List (Name × Json Nat)} :
    Answered (responseOutputText response) ↔
      (¬ HasDirectText response → ∀ output, getField response (text "output") = some output →
        Iterable output ∧ ∀ items, output = .arr items → ItemsGuarded items) := by
  unfold responseOutputText
  cases hdirect : (getString response (text "output_text")).filter
      fun direct => !direct.all isSpace with
  | some direct =>
      have hhas := directText_eq_some_iff.mp ⟨direct, hdirect⟩
      refine iff_of_true ?_ fun hnot => absurd hhas hnot
      intro raised hraised
      cases hraised
  | none =>
      have hnot : ¬ HasDirectText response := by
        rw [← directText_eq_some_iff, hdirect]
        rintro ⟨direct, heq⟩
        cases heq
      rw [forall_prop_of_true hnot]
      dsimp only
      cases houtput : getField response (text "output") with
      | none =>
          refine iff_of_true ?_ fun output heq => by cases heq
          intro raised hraised
          cases hraised
          rfl
      | some output =>
          rw [Option.getD_some]
          simp only [Option.some.injEq, forall_eq']
          cases hiterate : iterate output with
          | none =>
              refine iff_of_false ?_ fun h => iterate_eq_none_iff.mp hiterate h.1
              intro h
              cases h .typeError rfl
          | some elements =>
              have hiterable : Iterable output := by
                by_contra hnone
                rw [iterate_eq_none_iff.mpr hnone] at hiterate
                cases hiterate
              rw [and_iff_right hiterable, ← itemsGuarded_iterate hiterate]
              exact answered_itemsText_iff elements

theorem checkStatus_cases (response : List (Name × Json Nat)) :
    ¬ Hashable (statusOf response) ∧ checkStatus response = .error .typeError ∨
      Hashable (statusOf response) ∧
        ¬ (statusOf response = .null ∨ statusOf response = .str (text "completed")) ∧
        checkStatus response = .error .status ∨
      Hashable (statusOf response) ∧
        (statusOf response = .null ∨ statusOf response = .str (text "completed")) ∧
        checkStatus response = .ok () := by
  rw [checkStatus, statusOf]
  cases hstatus : getField response (text "status") with
  | none => simp [Hashable]
  | some status =>
      cases status with
      | str value =>
          by_cases hvalue : value = text "completed" <;> simp [Hashable, hvalue]
      | null => simp [Hashable]
      | bool value => simp [Hashable]
      | num lexeme => simp [Hashable]
      | arr elements => simp [Hashable]
      | obj members => simp [Hashable]

/-- Behind the text nothing can fail without being reported. -/
theorem answered_interpretReply {decode : Name → Option (Json Nat)} {body : Json Nat}
    {response : List (Name × Json Nat)} (hbody : body = .obj response)
    (hstatus : checkStatus response = .ok ()) :
    Answered (interpretReply decode body) ↔ Answered (responseOutputText response) := by
  rw [interpretReply, hbody]
  simp only [dictMembers, hstatus]
  cases htext : responseOutputText response with
  | error raised => simp [Answered]
  | ok value =>
      refine iff_of_true ?_ fun raised hraised => by cases hraised
      intro raised hraised
      dsimp only at hraised
      cases hdecode : decode value with
      | none =>
          rw [hdecode] at hraised
          cases hraised
          rfl
      | some generated =>
          simp only [hdecode] at hraised
          cases hvalid : validateGeneratedSuite generated with
          | error failure =>
              rw [hvalid] at hraised
              cases hraised
              rfl
          | ok entries =>
              rw [hvalid] at hraised
              cases hraised

/-- Interpreting a reply ends in an accepted suite or a reported error exactly for the
objects of which every part that is looked at has a shape the code handles. -/
theorem answered_iff (decode : Name → Option (Json Nat)) (body : Json Nat) :
    Answered (interpretReply decode body) ↔ ∃ response, body = .obj response ∧ Guarded response := by
  cases hbody : dictMembers body with
  | none =>
      refine iff_of_false ?_ ?_
      · intro h
        cases h .attributeError (by rw [interpretReply, hbody])
      · rintro ⟨response, hobj, _⟩
        rw [dictMembers_eq_some_iff.mpr hobj] at hbody
        cases hbody
  | some response =>
      have hobj := dictMembers_eq_some_iff.mp hbody
      have hguarded : (∃ response, body = .obj response ∧ Guarded response) ↔ Guarded response := by
        simp [hobj]
      rw [hguarded]
      rcases checkStatus_cases response with ⟨hstatus, hcheck⟩ | ⟨hstatus, hother, hcheck⟩ |
        ⟨hstatus, hproceeds, hcheck⟩
      · refine iff_of_false ?_ fun h => hstatus h.status
        intro h
        cases h .typeError (by simp only [interpretReply, hbody, hcheck])
      · refine iff_of_true ?_ ⟨hstatus, fun h => absurd h hother⟩
        intro raised hraised
        simp only [interpretReply, hbody, hcheck] at hraised
        cases hraised
        rfl
      · rw [answered_interpretReply hobj hcheck, answered_responseOutputText_iff]
        exact ⟨fun h => ⟨hstatus, fun _ => h⟩, fun h => h.output hproceeds⟩

/-- A completed response whose output is null. -/
def nullOutput : Json Nat :=
  .obj [(text "status", .str (text "completed")), (text "output", .null)]

theorem not_answered_nullOutput :
    interpretReply loads nullOutput = .error .typeError ∧
      ¬ Answered (interpretReply loads nullOutput) := by
  have hraised : interpretReply loads nullOutput = .error .typeError := rfl
  refine ⟨hraised, fun h => ?_⟩
  cases h .typeError hraised

end Icflow.Generate
