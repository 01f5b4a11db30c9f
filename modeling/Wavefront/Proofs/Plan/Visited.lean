/-
The steps that the survey of a document goes through.

A survey decides by the type that a step names which of its fields hold steps, and goes through
those in a fixed order. `Survey.visited` is that walk by itself. What the survey notes as ids are
the ids of the steps on the walk and of their bodies (`Survey.ids_surveyStep`), and the steps that a
reading finds inside a step of the same type stand on the walk in the same order
(`Step.ReadFrom.exists_items`).
-/
import Wavefront.Proofs.Plan.Flawless
import Wavefront.Proofs.Plan.Reading

set_option autoImplicit false

namespace Wavefront

namespace Survey

/-! ## The walk -/

/-- The fields that hold steps, in a step of a type. -/
def memberKeys : Option String → List String
  | some "parallel" => ["steps"]
  | some "conditional" => ["then", "otherwise", "else"]
  | _ => []

mutual

/-- The steps that the survey of a step goes through, by their fields, each before those inside
it. -/
def visited : Value → List Fields
  | .object fields =>
      fields :: (memberKeys (typeOf? fields)).flatMap fun key => visitedAt key fields
  | _ => []

/-- The steps at a field. -/
def visitedAt (key : String) : List (String × Value) → List Fields
  | [] => []
  | (k, v) :: rest => if k < key then visitedAt key rest else if k = key then visitedOf v else []

/-- The steps of what should be an array of steps. -/
def visitedOf : Value → List Fields
  | .array items => visitedAll items
  | _ => []

/-- The steps of the members of an array. -/
def visitedAll : List Value → List Fields
  | [] => []
  | item :: items => visited item ++ visitedAll items

end

/-- The walk goes through the items one by one. -/
theorem visitedAll_eq (items : List Value) : visitedAll items = items.flatMap visited := by
  induction items with
  | nil => rw [visitedAll]; rfl
  | cons item items ih => rw [visitedAll, ih, List.flatMap_cons]

/-- The items of an array at a field. -/
def itemsAt (key : String) (fields : Fields) : List Value :=
  ((Wavefront.Fields.get? key fields).bind Value.array?).getD []

/-- The items at a key are those of the array there. -/
theorem itemsAt_of_get? {key : String} {fields : Fields} {items : List Value}
    (h : Wavefront.Fields.get? key fields = some (.array items)) : itemsAt key fields = items := by
  rw [itemsAt, h]
  rfl

/-- Where nothing stands there are no items. -/
theorem itemsAt_of_get?_eq_none {key : String} {fields : Fields}
    (h : Wavefront.Fields.get? key fields = none) : itemsAt key fields = [] := by
  rw [itemsAt, h]
  rfl

/-- Where there is an item there is an array. -/
theorem get?_of_mem_itemsAt {key : String} {fields : Fields} {v : Value}
    (h : v ∈ itemsAt key fields) :
    Wavefront.Fields.get? key fields = some (.array (itemsAt key fields)) := by
  cases hfield : Wavefront.Fields.get? key fields with
  | none =>
    rw [itemsAt_of_get?_eq_none hfield] at h
    exact absurd h List.not_mem_nil
  | some w =>
    cases w with
    | array items => rw [itemsAt_of_get? hfield]
    | null => simp [itemsAt, hfield, Value.array?] at h
    | bool b => simp [itemsAt, hfield, Value.array?] at h
    | number n => simp [itemsAt, hfield, Value.array?] at h
    | string s => simp [itemsAt, hfield, Value.array?] at h
    | object fields => simp [itemsAt, hfield, Value.array?] at h

/-- The walk at a key goes through its items. -/
theorem visitedAt_eq (key : String) (fields : Fields) :
    visitedAt key fields = (itemsAt key fields).flatMap visited := by
  induction fields with
  | nil => rw [visitedAt]; rfl
  | cons pair rest ih =>
    obtain ⟨k, v⟩ := pair
    rw [visitedAt, itemsAt, Wavefront.Fields.get?_cons]
    by_cases hlt : k < key
    · rw [if_pos hlt, if_pos hlt, ih]
      rfl
    rw [if_neg hlt, if_neg hlt]
    by_cases heq : k = key
    · rw [if_pos heq, if_pos heq, Option.bind_some]
      cases v with
      | array items => rw [visitedOf, visitedAll_eq]; rfl
      | null => rw [visitedOf.eq_2 _ (by simp)]; rfl
      | bool b => rw [visitedOf.eq_2 _ (by simp)]; rfl
      | number n => rw [visitedOf.eq_2 _ (by simp)]; rfl
      | string s => rw [visitedOf.eq_2 _ (by simp)]; rfl
      | object fields => rw [visitedOf.eq_2 _ (by simp)]; rfl
    · rw [if_neg heq, if_neg heq]
      rfl

/-- The steps directly inside a step, as the survey goes through them. -/
def members (fields : Fields) : List Value :=
  (memberKeys (typeOf? fields)).flatMap fun key => itemsAt key fields

/-- The walk meets a step before its members. -/
theorem visited_object (fields : Fields) :
    visited (.object fields) = fields :: (members fields).flatMap visited := by
  rw [visited, members, List.flatMap_assoc]
  simp only [visitedAt_eq]

/-- Nothing but an object is a step. -/
theorem visited_of_not_object {v : Value} (h : v.isObject = false) : visited v = [] := by
  cases v with
  | object fields => cases h
  | null => rw [visited.eq_2 _ (by simp)]
  | bool b => rw [visited.eq_2 _ (by simp)]
  | number n => rw [visited.eq_2 _ (by simp)]
  | string s => rw [visited.eq_2 _ (by simp)]
  | array items => rw [visited.eq_2 _ (by simp)]

/-- What is no object is surveyed as a problem and nothing else. -/
theorem surveyStep_of_not_object {v : Value} (h : v.isObject = false) (path : String)
    (inherited : List String) :
    surveyStep path inherited v = { survey := problem path .notStep } := by
  cases v with
  | object fields => cases h
  | null => rw [surveyStep.eq_2 _ _ _ (by simp)]
  | bool b => rw [surveyStep.eq_2 _ _ _ (by simp)]
  | number n => rw [surveyStep.eq_2 _ _ _ (by simp)]
  | string s => rw [surveyStep.eq_2 _ _ _ (by simp)]
  | array items => rw [surveyStep.eq_2 _ _ _ (by simp)]

theorem members_of_type {fields : Fields} {type : Option String} (h : typeOf? fields = type) :
    members fields = (memberKeys type).flatMap fun key => itemsAt key fields := by
  rw [members, h]

/-- A member stands in an array at some field. -/
theorem exists_key_of_mem_members {fields : Fields} {v : Value} (h : v ∈ members fields) :
    ∃ key items, Wavefront.Fields.get? key fields = some (.array items) ∧ v ∈ items := by
  obtain ⟨key, -, hv⟩ := List.mem_flatMap.1 h
  exact ⟨key, _, get?_of_mem_itemsAt hv, hv⟩

/-- Induction along the walk. -/
theorem visitedInduction {motive : Value → Prop}
    (object : ∀ fields, (∀ v ∈ members fields, motive v) → motive (.object fields))
    (other : ∀ v, v.isObject = false → motive v) (v : Value) : motive v := by
  induction v using Value.membersInduction with
  | h v ih =>
    cases v with
    | object fields =>
      refine object fields fun w hw => ?_
      obtain ⟨key, items, hitems, hw⟩ := exists_key_of_mem_members hw
      exact ih fields key items rfl hitems w hw
    | null => exact other .null rfl
    | bool b => exact other (.bool b) rfl
    | number n => exact other (.number n) rfl
    | string s => exact other (.string s) rfl
    | array items => exact other (.array items) rfl

/-- The members of an accepted step are accepted. -/
theorem Accepts.of_mem_members {fields : Fields} {tag : Step.Tag}
    (h : IsStep (HasSteps Accepts fields) fields tag) {v : Value} (hv : v ∈ members fields) :
    Accepts v := by
  have hat : ∀ key needed, HasSteps Accepts fields key needed → v ∈ itemsAt key fields →
      Accepts v := by
    rintro key needed (⟨-, hnone⟩ | ⟨items, hitems, -, hall⟩) hv
    · rw [itemsAt_of_get?_eq_none hnone] at hv
      exact absurd hv List.not_mem_nil
    · rw [itemsAt_of_get? hitems] at hv
      exact hall v hv
  rw [members_of_type h.type] at hv
  have hform := h.form
  -- only groups and conditionals have members
  cases tag with
  | parallel =>
    obtain ⟨key, hkey, hv⟩ := List.mem_flatMap.1 hv
    obtain rfl := List.mem_singleton.1 hkey
    exact hat _ _ hform hv
  | conditional =>
    obtain ⟨-, hyes, hotherwise, helse⟩ := hform
    obtain ⟨key, hkey, hv⟩ := List.mem_flatMap.1 hv
    simp only [Step.Tag.name, memberKeys, List.mem_cons, List.not_mem_nil, or_false] at hkey
    rcases hkey with rfl | rfl | rfl
    · exact hat _ _ hyes hv
    · exact hat _ _ hotherwise hv
    · exact hat _ _ helse hv
  | tool => exact absurd hv List.not_mem_nil
  | loop => exact absurd hv List.not_mem_nil
  | reduce => exact absurd hv List.not_mem_nil
  | final => exact absurd hv List.not_mem_nil

/-! ## The ids -/

/-- The id of a body, unless there is none or it is empty. -/
def bodyId (body : Option Fields) : List String :=
  ((body.bind (Wavefront.Fields.get? "id")).bind Value.string?).toList.filter (· ≠ "")

/-- The fields of the body that a step of its type carries. -/
def bodyOf? (fields : Fields) : Option Fields :=
  match typeOf? fields with
  | some "loop" => (Wavefront.Fields.get? "step" fields).bind Value.object?
  | some "reduce" => (Wavefront.Fields.get? "reducer" fields).bind Value.object?
  | _ => none

/-- The ids that belong to a step: its own and that of its body. -/
def ownIds (fields : Fields) : List String :=
  (usableText? fields "id").toList ++ bodyId (bodyOf? fields)

/-- A body with an id notes it and declares that it waits for its owner; any other notes nothing. -/
theorem entries_surveyBody (body : Option Value) (path : String) (owner : Option String) :
    (surveyBody body path owner).ids = bodyId (body.bind Value.object?)
      ∧ (surveyBody body path owner).declared
        = (bodyId (body.bind Value.object?)).map fun id => ⟨id, path, [], owner.toList⟩ := by
  cases body with
  | none => exact ⟨rfl, rfl⟩
  | some v =>
    cases v with
    | object fields =>
      rw [surveyBody, Option.bind_some, Value.object?, bodyId, Option.bind_some]
      cases hid : Wavefront.Fields.get? "id" fields with
      | none => simp
      | some w =>
        cases w with
        | string id =>
          by_cases h : id = ""
          · simp [h, Value.string?]
          · simp [h, Value.string?]
        | null => simp [Value.string?]
        | bool b => simp [Value.string?]
        | number n => simp [Value.string?]
        | array items => simp [Value.string?]
        | object fields => simp [Value.string?]
    | null => exact ⟨rfl, rfl⟩
    | bool b => exact ⟨rfl, rfl⟩
    | number n => exact ⟨rfl, rfl⟩
    | string s => exact ⟨rfl, rfl⟩
    | array items => exact ⟨rfl, rfl⟩

/-- An inline reducer notes and declares what a body does. -/
theorem entries_surveyReducer (reducer : Option Value) (path : String) (owner : Option String) :
    (surveyReducer reducer path owner).ids = bodyId (reducer.bind Value.object?)
      ∧ (surveyReducer reducer path owner).declared
        = (bodyId (reducer.bind Value.object?)).map fun id => ⟨id, path, [], owner.toList⟩ := by
  cases reducer with
  | none => exact ⟨rfl, rfl⟩
  | some v =>
    cases v with
    | object fields => exact entries_surveyBody (some (.object fields)) path owner
    | string s => exact ⟨ids_check _ _ _, declared_check _ _ _⟩
    | null => exact ⟨rfl, rfl⟩
    | bool b => exact ⟨rfl, rfl⟩
    | number n => exact ⟨rfl, rfl⟩
    | array items => exact ⟨rfl, rfl⟩

/-- What is found at a key is the survey of the items there. -/
theorem found_membersAt (key path : String) (scope : List String) (fields : Fields) :
    (membersAt key path scope fields).found = surveySteps key path scope 0 (itemsAt key fields) := by
  rw [membersAt_eq]
  have hnil : surveySteps key path scope 0 [] = {} := by rw [surveySteps]
  cases hfield : Wavefront.Fields.get? key fields with
  | none =>
    rw [itemsAt_of_get?_eq_none hfield, hnil]
    rfl
  | some v =>
    cases v with
    | array items =>
      rw [itemsAt_of_get? hfield]
      exact congrArg Members.found (membersOf.eq_1 key path scope items)
    | null => simp [membersOf, Members.found, itemsAt, hfield, Value.array?, hnil]
    | bool b => simp [membersOf, Members.found, itemsAt, hfield, Value.array?, hnil]
    | number n => simp [membersOf, Members.found, itemsAt, hfield, Value.array?, hnil]
    | string s => simp [membersOf, Members.found, itemsAt, hfield, Value.array?, hnil]
    | object fields => simp [membersOf, Members.found, itemsAt, hfield, Value.array?, hnil]

/-- The part of the survey of a step that belongs to its type. -/
def typedSurvey (fields : Fields) (path : String) (scope : List String) : Survey :=
  surveyTyped fields path (typeOf? fields) (usableText? fields "id")
    (membersAt "steps" path scope fields) (membersAt "then" path scope fields)
    (membersAt "otherwise" path scope fields) (membersAt "else" path scope fields)

/-- It notes the body, and the steps inside one field after the other. -/
theorem ids_typedSurvey (fields : Fields) (path : String) (scope : List String) :
    (typedSurvey fields path scope).ids = bodyId (bodyOf? fields)
      ++ (memberKeys (typeOf? fields)).flatMap fun key =>
        (surveySteps key path scope 0 (itemsAt key fields)).survey.ids := by
  have hnone : bodyId none = [] := rfl
  cases htype : typeOf? fields with
  | none => simp [typedSurvey, bodyOf?, htype, surveyTyped, memberKeys, hnone]
  | some type =>
    obtain ⟨tag, rfl⟩ := exists_tag_of_typeOf? htype
    cases tag <;> simp [typedSurvey, bodyOf?, htype, surveyTyped, memberKeys, hnone, Step.Tag.name,
      found_membersAt, entries_surveyBody, entries_surveyReducer]

/-- It declares the body as waiting for its owner, and likewise what is inside. -/
theorem declared_typedSurvey (fields : Fields) (path : String) (scope : List String) :
    ∃ place, (typedSurvey fields path scope).declared = (bodyId (bodyOf? fields)).map
        (fun id => ⟨id, place, [], (usableText? fields "id").toList⟩)
      ++ (memberKeys (typeOf? fields)).flatMap
        (fun key => (surveySteps key path scope 0 (itemsAt key fields)).survey.declared) := by
  have hnone : bodyId none = [] := rfl
  cases htype : typeOf? fields with
  | none => simp [typedSurvey, bodyOf?, htype, surveyTyped, memberKeys, hnone]
  | some type =>
    obtain ⟨tag, rfl⟩ := exists_tag_of_typeOf? htype
    cases tag with
    | loop =>
      refine ⟨fieldPath path "step", ?_⟩
      simp [typedSurvey, bodyOf?, htype, surveyTyped, memberKeys, Step.Tag.name,
        entries_surveyBody]
    | reduce =>
      refine ⟨fieldPath path "reducer", ?_⟩
      simp [typedSurvey, bodyOf?, htype, surveyTyped, memberKeys, Step.Tag.name,
        entries_surveyReducer]
    | tool => simp [typedSurvey, bodyOf?, htype, surveyTyped, memberKeys, hnone, Step.Tag.name]
    | parallel =>
      simp [typedSurvey, bodyOf?, htype, surveyTyped, memberKeys, hnone, Step.Tag.name,
        found_membersAt]
    | conditional =>
      simp [typedSurvey, bodyOf?, htype, surveyTyped, memberKeys, hnone, Step.Tag.name,
        found_membersAt]
    | final => simp [typedSurvey, bodyOf?, htype, surveyTyped, memberKeys, hnone, Step.Tag.name]

/-- A step notes its id before those of its fields. -/
theorem ids_surveyStep_object (fields : Fields) (path : String) (inherited : List String) :
    (surveyStep path inherited (.object fields)).survey.ids = (usableText? fields "id").toList
      ++ (typedSurvey fields path (inherited ++ dependsOn fields)).ids := by
  have hids : ∀ ids : List String, Survey.ids ⟨ids.map (.id · path), []⟩ = ids := by
    intro ids
    rw [Survey.ids, List.filterMap_map]
    exact List.filterMap_some
  rw [surveyStep, surveyFields]
  simp only [ids_append, ids_requireText, ids_surveyType, ids_surveyDependsOn, ids_surveyCommon,
    ids_of_nil, List.nil_append, List.append_nil]
  rw [hids]
  rfl

/-- The ids of the steps directly inside a step. -/
def typedMemberIds (fields : Fields) (path : String) (scope : List String) : List String :=
  memberIds (typeOf? fields) (membersAt "steps" path scope fields)
    (membersAt "then" path scope fields) (membersAt "otherwise" path scope fields)
    (membersAt "else" path scope fields)

/-- A step is declared after everything inside it, and implies its members. -/
theorem declared_surveyStep_object (fields : Fields) (path : String) (inherited : List String) :
    (surveyStep path inherited (.object fields)).survey.declared
      = (typedSurvey fields path (inherited ++ dependsOn fields)).declared
        ++ (usableText? fields "id").toList.map fun id =>
          ⟨id, path, dependsOn fields,
            inherited ++ typedMemberIds fields path (inherited ++ dependsOn fields)⟩ := by
  rw [surveyStep, surveyFields]
  simp only [declared_append, declared_requireText, declared_surveyType, declared_surveyDependsOn,
    declared_surveyCommon, List.nil_append, List.append_nil]
  rfl

/-- The ids of steps side by side, step by step. -/
theorem ids_surveySteps {key path : String} {scope : List String} {i : Nat} {items : List Value}
    (h : ∀ v ∈ items, ∀ path,
      (surveyStep path scope v).survey.ids = (visited v).flatMap ownIds) :
    (surveySteps key path scope i items).survey.ids = (items.flatMap visited).flatMap ownIds := by
  induction items generalizing i with
  | nil => rw [surveySteps]; rfl
  | cons item items ih =>
    rw [surveySteps, ids_append, h item List.mem_cons_self,
      ih fun v hv => h v (List.mem_cons_of_mem item hv), List.flatMap_cons, List.flatMap_append]

/-- The ids that a survey notes are those that belong to the steps on its walk. -/
theorem ids_surveyStep (path : String) (inherited : List String) (v : Value) :
    (surveyStep path inherited v).survey.ids = (visited v).flatMap ownIds := by
  induction v using visitedInduction generalizing path inherited with
  | object fields ih =>
    have hinside : ∀ key ∈ memberKeys (typeOf? fields), ∀ scope,
        (surveySteps key path scope 0 (itemsAt key fields)).survey.ids
          = ((itemsAt key fields).flatMap visited).flatMap ownIds := fun key hkey scope =>
      ids_surveySteps fun v hv path => ih v (List.mem_flatMap.2 ⟨key, hkey, hv⟩) path scope
    rw [ids_surveyStep_object, ids_typedSurvey,
      List.flatMap_congr fun key hkey => hinside key hkey _, visited_object, List.flatMap_cons,
      ownIds, members, List.flatMap_assoc, List.append_assoc]
    simp only [List.flatMap_assoc]
  | other v hv =>
    rw [surveyStep_of_not_object hv, visited_of_not_object hv, ids_problem]
    rfl

/-- Steps side by side declare the ids that they note, if each of them does. -/
theorem declared_surveySteps_perm {key path : String} {scope : List String} {i : Nat}
    {items : List Value}
    (h : ∀ v ∈ items, ∀ path, ((surveyStep path scope v).survey.declared.map (·.id)).Perm
      (surveyStep path scope v).survey.ids) :
    ((surveySteps key path scope i items).survey.declared.map (·.id)).Perm
      (surveySteps key path scope i items).survey.ids := by
  induction items generalizing i with
  | nil =>
    rw [surveySteps]
    exact List.Perm.refl _
  | cons item items ih =>
    rw [surveySteps, ids_append, declared_append, List.map_append]
    exact (h item List.mem_cons_self _).append
      (ih fun v hv => h v (List.mem_cons_of_mem item hv))

/-- For each id that comes up there is one declaration. -/
theorem declared_surveyStep_perm (path : String) (inherited : List String) (v : Value) :
    ((surveyStep path inherited v).survey.declared.map (·.id)).Perm
      (surveyStep path inherited v).survey.ids := by
  induction v using visitedInduction generalizing path inherited with
  | object fields ih =>
    have hinside : ∀ key ∈ memberKeys (typeOf? fields), ∀ scope,
        ((surveySteps key path scope 0 (itemsAt key fields)).survey.declared.map (·.id)).Perm
          (surveySteps key path scope 0 (itemsAt key fields)).survey.ids := fun key hkey scope =>
      declared_surveySteps_perm fun v hv path =>
        ih v (List.mem_flatMap.2 ⟨key, hkey, hv⟩) path scope
    obtain ⟨place, hdeclared⟩ := declared_typedSurvey fields path (inherited ++ dependsOn fields)
    rw [ids_surveyStep_object, declared_surveyStep_object, hdeclared, ids_typedSurvey,
      List.map_append, List.map_append, List.map_map, List.map_map, List.map_flatMap]
    refine List.perm_append_comm.trans (List.Perm.append ?_ (List.Perm.append ?_ ?_))
    · exact List.Perm.of_eq (List.map_id _)
    · exact List.Perm.of_eq (List.map_id _)
    · exact List.Perm.flatMap_left _ fun key hkey => hinside key hkey _
  | other v hv =>
    rw [surveyStep_of_not_object hv, ids_problem, declared_problem]
    exact List.Perm.refl _

end Survey

/-! ## Plans -/

namespace Plan

/-- The survey of the steps of a document. -/
def surveyed (document : Value) : Survey :=
  (Survey.surveySteps "steps" "" [] 0
    (Survey.itemsAt "steps" (document.object?.getD []))).survey

/-- The steps that the check of a document goes through. -/
def visited (document : Value) : List Survey.Fields :=
  (Survey.itemsAt "steps" (document.object?.getD [])).flatMap Survey.visited

/-- What a document is like that passes the check, given by its fields. -/
structure Checked (fields : Document.Fields) : Prop where
  version : (∃ s, Fields.get? "version" fields = some (.string s) ∧ Text.allBlank s = false)
    ∨ ∃ n, Fields.get? "version" fields = some (.number n)
  mode : ∀ v, (Fields.get? "execution_mode" fields).or (Fields.get? "executionMode" fields) = some v →
    ∃ s, v = .string s ∧ s ∈ modeNames
  steps : ∃ items, Fields.get? "steps" fields = some (.array items) ∧ items ≠ []
  issues : (surveyed (.object fields)).issues = []

/-- A version that passes is a text that is not blank, or a number. -/
theorem checkVersion_eq_nil {version : Option Value} :
    Survey.checkVersion version = [] ↔ (∃ s, version = some (.string s) ∧ Text.allBlank s = false)
      ∨ ∃ n, version = some (.number n) := by
  cases version with
  | none => simp [Survey.checkVersion]
  | some v => cases v <;> simp [Survey.checkVersion]

/-- A mode that passes has one of the names; it may also be left out. -/
theorem checkMode_eq_nil {mode other : Option Value} :
    Survey.checkMode mode other = []
      ↔ ∀ v, mode.or other = some v → ∃ s, v = .string s ∧ s ∈ modeNames := by
  rw [Survey.checkMode]
  cases mode.or other with
  | none => simp
  | some v => cases v <;> simp

/-- Steps that pass are an array that is not empty, with no issue in its survey. -/
theorem checkSteps_eq_nil {fields : Document.Fields} :
    Survey.checkSteps (Fields.get? "steps" fields) = []
      ↔ (∃ items, Fields.get? "steps" fields = some (.array items) ∧ items ≠ [])
        ∧ (surveyed (.object fields)).issues = [] := by
  rw [surveyed, Value.object?, Option.getD_some]
  cases hfield : Fields.get? "steps" fields with
  | none => simp [Survey.checkSteps]
  | some v =>
    cases v with
    | array items =>
      rw [Survey.itemsAt_of_get? hfield]
      cases items with
      | nil => simp [Survey.checkSteps]
      | cons item items => simp [Survey.checkSteps]
    | null => simp [Survey.checkSteps]
    | bool b => simp [Survey.checkSteps]
    | number n => simp [Survey.checkSteps]
    | string s => simp [Survey.checkSteps]
    | object fields => simp [Survey.checkSteps]

/-- A document passes the check if it has no issue. -/
theorem check_eq_ok_iff {document : Value} : check document = .ok () ↔ issues document = [] := by
  rw [check]
  split
  · rename_i h
    simp [h]
  · rename_i h
    refine iff_of_false (fun herror => ?_) h
    cases herror

/-- An object passes exactly if its version, its mode and its steps do. -/
theorem check_object_iff {fields : Document.Fields} :
    check (.object fields) = .ok () ↔ Checked fields := by
  rw [check_eq_ok_iff, issues, List.append_eq_nil_iff, List.append_eq_nil_iff, checkVersion_eq_nil,
    checkMode_eq_nil, checkSteps_eq_nil]
  constructor
  · rintro ⟨⟨hversion, hmode⟩, hsteps, hissues⟩
    exact ⟨hversion, hmode, hsteps, hissues⟩
  · rintro ⟨hversion, hmode, hsteps, hissues⟩
    exact ⟨⟨hversion, hmode⟩, hsteps, hissues⟩

/-- What passes is an object. -/
theorem exists_object_of_check {document : Value} (h : check document = .ok ()) :
    ∃ fields, document = .object fields ∧ Checked fields := by
  cases document with
  | object fields => exact ⟨fields, rfl, check_object_iff.1 h⟩
  | null => cases h
  | bool b => cases h
  | number n => cases h
  | string s => cases h
  | array items => cases h

/-- Every step of a document that passes the check is accepted. -/
theorem Checked.accepts {fields : Document.Fields} (h : Checked fields) :
    ∀ v ∈ Survey.itemsAt "steps" fields, Survey.Accepts v :=
  Survey.flawless_surveySteps_iff.1 (Survey.clean_of_issues_eq_nil h.issues).flawless

end Plan

end Wavefront
