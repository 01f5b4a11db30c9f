/-
The survey of a written plan, and what a plan is like that passes its check.

A survey reads fields of a document. Those of a written document are known, so each field that the
survey asks for can be given in terms of the step that was written. With that the survey of a step
without anything wrong is followed along the places of the plan: it finds the ids that belong to
them, in their order, and it declares for every place what the place waits for and what is implied
by where it stands. `Records` is that statement, for the steps of a list.

The check of the plan then says of the plan itself that it is sound.
-/
import Mathlib.Data.List.Permutation
import Wavefront.Proofs.Plan.Sound
import Wavefront.Proofs.Plan.Survey
import Wavefront.Proofs.Value.Fields

set_option autoImplicit false

namespace Wavefront

/-! ## Fields of written steps -/

namespace Document

/-- A field that is written when it is set is found again if it is. -/
@[simp] theorem last?_ifSet {α : Type} (key k : String) (write : α → Value) (o : Option α) :
    Wavefront.Fields.last? key (ifSet k write o) = if k = key then o.map write else none := by
  cases o with
  | none => simp [ifSet]
  | some a => simp [ifSet]

/-- A list that is written when it is not empty is found again if it is not. -/
@[simp] theorem last?_ifAny {α : Type} (key k : String) (write : List α → Value) (items : List α) :
    Wavefront.Fields.last? key (ifAny k write items)
      = if k = key then items.head?.map fun _ => write items else none := by
  cases items with
  | nil => simp [ifAny]
  | cons a items => simp [ifAny]

/-- Among texts none is left out. -/
theorem filterMap_string?_map (ss : List String) :
    (ss.map Value.string).filterMap Value.string? = ss := by
  rw [List.filterMap_map]
  exact List.filterMap_some

end Document

open Document

namespace Survey

/-- The survey finds the dependencies that were written. -/
theorem dependsOn_of_get? {fields : Fields} {ids : List String}
    (h : Wavefront.Fields.get? "depends_on" fields
      = ids.head?.map fun _ => ofTexts ids) : dependsOn fields = ids := by
  rw [dependsOn, h]
  cases ids with
  | nil => rfl
  | cons id ids => exact filterMap_string?_map (id :: ids)

/-- The fields that the survey of any step asks for, when they are those of a step. -/
structure Writes (fields : Fields) (s : Step) : Prop where
  id : Wavefront.Fields.get? "id" fields = some (.string s.id)
  type : typeOf? fields = some s.kind
  dependsOn : dependsOn fields = s.dependsOn

end Survey

namespace Step

/-- The fields that a step is written with. -/
def fields (s : Step) : List (String × Value) := s.toValue.object?.getD []

/-- A step is written as an object of its fields. -/
theorem toValue_eq (s : Step) : s.toValue = .object s.fields := by
  cases s with
  | parallel shell steps => rw [fields, toValue, Value.ofFields, Value.object?, Option.getD_some]
  | conditional shell condition yes no =>
    rw [fields, toValue, Value.ofFields, Value.object?, Option.getD_some]
  | tool s => rfl
  | loop s => rfl
  | reduce s => rfl
  | final s => rfl

/-- A key of the fields is that of the last pair that was written with it. -/
theorem get?_fields {s : Step} {pairs : List (String × Value)} (h : s.toValue = .ofFields pairs)
    (key : String) : Fields.get? key s.fields = Fields.last? key pairs := by
  rw [fields, h, Value.ofFields, Value.object?, Option.getD_some, Fields.get?_ofList]

/-- The survey finds the id, the kind and the dependencies of a written step. -/
theorem writes_fields (s : Step) : Survey.Writes s.fields s := by
  -- a tool step is written without a type, so its kind is found by the tool that it names
  cases s with
  | tool s =>
    have h := get?_fields (s := .tool s) rfl
    refine ⟨?_, ?_, Survey.dependsOn_of_get? ?_⟩
    · simp [h, commonFields, Policy.toFields, id]
    · simp [Survey.typeOf?, Fields.contains, h, commonFields, Policy.toFields, kind]
    · simp [h, commonFields, Policy.toFields, dependsOn]
  | loop s =>
    have h := get?_fields (s := .loop s) rfl
    refine ⟨?_, ?_, Survey.dependsOn_of_get? ?_⟩
    · simp [h, commonFields, Policy.toFields, id]
    · simp [Survey.typeOf?, h, commonFields, Policy.toFields, kind, Tag.name, stepTypes]
    · simp [h, commonFields, Policy.toFields, dependsOn]
  | parallel shell steps =>
    have h := get?_fields (s := .parallel shell steps) (by rw [toValue])
    refine ⟨?_, ?_, Survey.dependsOn_of_get? ?_⟩
    · simp [h, Shell.toFields, commonFields, Policy.toFields, id]
    · simp [Survey.typeOf?, h, Shell.toFields, commonFields, Policy.toFields, kind, Tag.name,
        stepTypes]
    · simp [h, Shell.toFields, commonFields, Policy.toFields, dependsOn]
  | reduce s =>
    have h := get?_fields (s := .reduce s) rfl
    refine ⟨?_, ?_, Survey.dependsOn_of_get? ?_⟩
    · simp [h, commonFields, Policy.toFields, id]
    · simp [Survey.typeOf?, h, commonFields, Policy.toFields, kind, Tag.name, stepTypes]
    · simp [h, commonFields, Policy.toFields, dependsOn]
  | conditional shell condition yes no =>
    have h := get?_fields (s := .conditional shell condition yes no) (by rw [toValue])
    refine ⟨?_, ?_, Survey.dependsOn_of_get? ?_⟩
    · simp [h, Shell.toFields, commonFields, Policy.toFields, id]
    · simp [Survey.typeOf?, h, Shell.toFields, commonFields, Policy.toFields, kind, Tag.name,
        stepTypes]
    · simp [h, Shell.toFields, commonFields, Policy.toFields, dependsOn]
  | final s =>
    have h := get?_fields (s := .final s) rfl
    refine ⟨?_, ?_, Survey.dependsOn_of_get? ?_⟩
    · simp [h, commonFields, Policy.toFields, id]
    · simp [Survey.typeOf?, h, commonFields, Policy.toFields, kind, Tag.name, stepTypes]
    · simp [h, commonFields, Policy.toFields, dependsOn]

end Step

namespace Survey

/-- The entry of a declaration without the place in the document. -/
def Declared.entry (d : Declared) : String × List String × List String :=
  (d.id, d.dependsOn, d.implied)

/-- A body that is written comes up by its id, unless that is empty, and waits for its owner. -/
theorem surveyBody_toValue (s : ToolStep) (path owner : String) :
    (surveyBody (some s.toValue) path (some owner)).ids = [s.id].filter (· ≠ "")
      ∧ (surveyBody (some s.toValue) path (some owner)).declared.map Declared.entry
        = ([s.id].filter (· ≠ "")).map fun b => (b, [], [owner]) := by
  have hid := (Step.writes_fields (.tool s)).id
  have hvalue : s.toValue = .object (Step.fields (.tool s)) := Step.toValue_eq (.tool s)
  rw [hvalue, surveyBody, hid]
  by_cases h : s.id = ""
  · simp [Step.id, h]
  · simp [Step.id, h, Declared.entry]

/-- The body of a written loop notes its id, if it has one, and waits for the loop. -/
theorem surveyBody_loop (s : LoopStep) (path : String) :
    (surveyBody (some s.body.toValue) path (some s.id)).ids = (Step.loop s).bodyIds
      ∧ (surveyBody (some s.body.toValue) path (some s.id)).declared.map Declared.entry
        = (Step.loop s).bodyIds.map fun b => (b, [], [s.id]) :=
  surveyBody_toValue s.body path s.id

/-- An inline reducer that is written notes its id, if it has one, and waits for the reduce step. -/
theorem surveyReducer_toValue (s : ReduceStep) (path : String) :
    (surveyReducer (some s.reducer.toValue) path (some s.id)).ids = (Step.reduce s).bodyIds
      ∧ (surveyReducer (some s.reducer.toValue) path (some s.id)).declared.map Declared.entry
        = (Step.reduce s).bodyIds.map fun b => (b, [], [s.id]) := by
  cases h : s.reducer with
  | named tool =>
    have hnone : (Step.reduce s).bodyIds = [] := by
      simp [Step.bodyIds, Step.body?, h]
    rw [hnone, Reducer.toValue, surveyReducer]
    simp
  | inline step =>
    have hsome : (Step.reduce s).bodyIds = [step.id].filter (· ≠ "") := by
      simp [Step.bodyIds, Step.body?, h]
    rw [hsome]
    exact surveyBody_toValue step path s.id

/-- The survey of a field that may hold steps goes by what the look-up finds there. -/
theorem membersAt_eq (field path : String) (scope : List String) (fields : Fields) :
    membersAt field path scope fields
      = match Wavefront.Fields.get? field fields with
        | some v => membersOf field path scope v
        | none => .absent := by
  induction fields with
  | nil => rw [membersAt]; rfl
  | cons pair rest ih =>
    obtain ⟨k, v⟩ := pair
    rw [membersAt, Wavefront.Fields.get?_cons]
    by_cases hlt : k < field
    · rw [if_pos hlt, if_pos hlt, ih]
    rw [if_neg hlt, if_neg hlt]
    by_cases heq : k = field
    · rw [if_pos heq, if_pos heq]
    · rw [if_neg heq, if_neg heq]

end Survey

/-! ## What a survey records -/

namespace Place

/-- The entries for a place: that of its body, and its own. -/
def entries (P : Place) : List (String × List String × List String) :=
  (P.step.bodyIds.map fun b => (b, [], [P.id]))
    ++ [(P.id, P.step.dependsOn, P.inherited ++ P.members.map id)]

/-- What the survey of a step comes upon at one of its fields. -/
def membersAt (P : Place) (path field : String) : Survey.Members :=
  Survey.membersAt field path P.awaited P.step.fields

/-- The part of the survey of a step that belongs to its type. -/
def surveyTyped (P : Place) (path : String) : Survey :=
  Survey.surveyTyped P.step.fields path (some P.step.kind) (some P.id) (P.membersAt path "steps")
    (P.membersAt path "then") (P.membersAt path "otherwise") (P.membersAt path "else")

/-- The ids of the members that the survey of a step comes upon. -/
def memberIds (P : Place) (path : String) : List String :=
  Survey.memberIds (some P.step.kind) (P.membersAt path "steps") (P.membersAt path "then")
    (P.membersAt path "otherwise") (P.membersAt path "else")

end Place

namespace Survey

/-- What the survey of a written step is made of, if nothing is wrong with it. -/
theorem surveyStep_toValue {P : Place} {path : String}
    (h : (surveyStep path P.inherited P.step.toValue).survey.Flawless) :
    P.id ≠ "" ∧ (P.surveyTyped path).Flawless
      ∧ (surveyStep path P.inherited P.step.toValue).ids = [P.id]
      ∧ (surveyStep path P.inherited P.step.toValue).survey.ids = P.id :: (P.surveyTyped path).ids
      ∧ (surveyStep path P.inherited P.step.toValue).survey.declared
        = (P.surveyTyped path).declared
          ++ [⟨P.id, path, P.step.dependsOn, P.inherited ++ P.memberIds path⟩] := by
  obtain ⟨hid, htype, hdepends⟩ := P.step.writes_fields
  have hscope : P.inherited ++ P.step.dependsOn = P.awaited := rfl
  rw [Step.toValue_eq, surveyStep, hdepends, hscope, surveyFields, htype] at h ⊢
  simp only [flawless_append] at h
  obtain ⟨husable, hne⟩ := usableText?_of_requireText P.step.fields path "id" hid h.1.1.1.1.1.1
  rw [husable] at h ⊢
  refine ⟨hne, h.1.1.2, rfl, ?_, ?_⟩
  · simp [Place.id, Place.surveyTyped, Place.membersAt]
  · simp [Place.id, Place.surveyTyped, Place.memberIds, Place.membersAt, hdepends]

/-- The survey is that of steps at these places. -/
structure Records (s : OfSteps) (Ps : List Place) : Prop where
  ids : s.ids = Ps.map Place.id
  known : s.survey.ids = (Ps.flatMap Place.within).flatMap (·.step.ownIds)
  declared : (s.survey.declared.map Declared.entry).Perm
    ((Ps.flatMap Place.within).flatMap Place.entries)
  nonempty : ∀ Q ∈ Ps.flatMap Place.within, Q.id ≠ ""
  /-- A parallel step has steps inside. -/
  groups : ∀ Q ∈ Ps.flatMap Place.within, Q.step.kind = "parallel" → Q.members ≠ []

theorem Records.nil : Records {} [] :=
  ⟨rfl, rfl, List.Perm.refl _, fun _ hQ => absurd hQ List.not_mem_nil,
    fun _ hQ => absurd hQ List.not_mem_nil⟩

/-- What is recorded of two lists of places is recorded of both together. -/
theorem Records.append {s t : OfSteps} {Ps Qs : List Place} (hs : Records s Ps)
    (ht : Records t Qs) : Records ⟨s.survey ++ t.survey, s.ids ++ t.ids⟩ (Ps ++ Qs) := by
  refine ⟨?_, ?_, ?_, ?_, ?_⟩
  · rw [hs.ids, ht.ids, List.map_append]
  · rw [ids_append, hs.known, ht.known, List.flatMap_append, List.flatMap_append]
  · rw [declared_append, List.map_append, List.flatMap_append, List.flatMap_append]
    exact hs.declared.append ht.declared
  · rw [List.flatMap_append]
    exact List.forall_mem_append.2 ⟨hs.nonempty, ht.nonempty⟩
  · rw [List.flatMap_append]
    exact List.forall_mem_append.2 ⟨hs.groups, ht.groups⟩

/-- Steps side by side are recorded if each of them is. -/
theorem records_surveySteps {scope : List String} {home : Option String} {steps : List Step}
    (hsteps : ∀ s ∈ steps, ∀ path, (surveyStep path scope s.toValue).survey.Flawless →
      Records (surveyStep path scope s.toValue) [⟨s, scope, home⟩])
    {field path : String} {i : Nat}
    (h : (surveySteps field path scope i (Step.toValues steps)).survey.Flawless) :
    Records (surveySteps field path scope i (Step.toValues steps))
      (steps.map fun s => ⟨s, scope, home⟩) := by
  induction steps generalizing i with
  | nil =>
    rw [Step.toValues, surveySteps]
    exact Records.nil
  | cons s steps ih =>
    rw [Step.toValues, surveySteps] at h ⊢
    rw [flawless_append] at h
    have hfirst := hsteps s List.mem_cons_self _ h.1
    have hrest := ih (fun t ht => hsteps t (List.mem_cons_of_mem s ht)) h.2
    exact hfirst.append hrest

/-- A field with an array is surveyed as its items. -/
theorem membersAt_of_get? {field : String} {fields : Fields} {items : List Value}
    (h : Wavefront.Fields.get? field fields = some (.array items)) (path : String)
    (scope : List String) :
    membersAt field path scope fields
      = .steps items.isEmpty (surveySteps field path scope 0 items) := by
  rw [membersAt_eq, h]
  exact membersOf.eq_1 field path scope items

/-- A field that is not there is absent. -/
theorem membersAt_of_get?_eq_none {field : String} {fields : Fields}
    (h : Wavefront.Fields.get? field fields = none) (path : String) (scope : List String) :
    membersAt field path scope fields = .absent := by
  rw [membersAt_eq, h]

/-- A list of steps that is left out when it is empty is found all the same. -/
theorem found_membersAt_of_ifAny {field : String} {fields : Fields} {items : List Value}
    (h : Wavefront.Fields.get? field fields = items.head?.map fun _ => .array items)
    (path : String) (scope : List String) :
    (membersAt field path scope fields).found = surveySteps field path scope 0 items := by
  cases items with
  | nil =>
    rw [membersAt_of_get?_eq_none h, surveySteps]
    rfl
  | cons item items =>
    rw [membersAt_of_get? h]
    rfl

/-- The part of the survey that belongs to the type of a step is that of its body and of the steps
inside it. -/
def TypedRecords (P : Place) (path : String) : Prop :=
  ∃ s : OfSteps, Records s P.members ∧ P.memberIds path = s.ids
    ∧ (P.surveyTyped path).ids = P.step.bodyIds ++ s.survey.ids
    ∧ (P.surveyTyped path).declared.map Declared.entry
      = (P.step.bodyIds.map fun b => (b, [], [P.id])) ++ s.survey.declared.map Declared.entry
    ∧ (P.step.kind = "parallel" → P.members ≠ [])

/-- For a step without steps inside only the body counts. -/
theorem typedRecords_of_body {P : Place} {path : String} (hmembers : P.members = [])
    (hmemberIds : P.memberIds path = []) (hkind : P.step.kind ≠ "parallel")
    (hids : (P.surveyTyped path).ids = P.step.bodyIds)
    (hdeclared : (P.surveyTyped path).declared.map Declared.entry
      = P.step.bodyIds.map fun b => (b, [], [P.id])) : TypedRecords P path := by
  refine ⟨{}, ?_, hmemberIds, ?_, ?_, fun h => absurd h hkind⟩
  · rw [hmembers]
    exact Records.nil
  · rw [hids, ids_of_nil, List.append_nil]
  · rw [hdeclared, List.map_nil, List.append_nil]

/-- The fields of a group record its members. -/
theorem typedRecords_parallel {P : Place} {shell : Shell} {steps : List Step}
    (hP : P.step = .parallel shell steps)
    (hmembers : ∀ M ∈ P.members, ∀ path,
      (surveyStep path M.inherited M.step.toValue).survey.Flawless →
      Records (surveyStep path M.inherited M.step.toValue) [M])
    {path : String} (h : (P.surveyTyped path).Flawless) : TypedRecords P path := by
  have hkind : P.step.kind = "parallel" := by rw [hP, Step.kind]
  have hbody : P.step.bodyIds = [] := by
    rw [hP]
    rfl
  have hplaces : P.members = steps.map fun s => ⟨s, P.awaited, P.innerHome⟩ := by
    rw [Place.members, hP, Step.children]
  have hfield : Wavefront.Fields.get? "steps" P.step.fields
      = some (.array (Step.toValues steps)) := by
    rw [hP]
    simp [Step.get?_fields (s := .parallel shell steps) (by rw [Step.toValue]), Shell.toFields,
      commonFields, Policy.toFields]
  have hat := membersAt_of_get? hfield path P.awaited
  have htyped : P.surveyTyped path
      = (P.membersAt path "steps").survey (fieldPath path "steps") true := by
    rw [Place.surveyTyped, hkind]
    rfl
  rw [htyped, Place.membersAt, hat] at h
  -- what is recorded, then the ids of the members, the ids and the declarations, and that a group
  -- is not empty
  refine ⟨surveySteps "steps" path P.awaited 0 (Step.toValues steps), ?_, ?_, ?_, ?_, ?_⟩
  · rw [hplaces]
    refine records_surveySteps ?_ (Members.flawless_found h)
    intro s hs
    exact hmembers ⟨s, P.awaited, P.innerHome⟩
      (hplaces ▸ List.mem_map.2 ⟨s, hs, rfl⟩)
  · rw [Place.memberIds, hkind]
    exact congrArg Members.ids hat
  · rw [htyped, hbody, Members.ids_survey, Place.membersAt, hat]
    rfl
  · rw [htyped, hbody, Members.declared_survey, Place.membersAt, hat]
    rfl
  · rintro - hnil
    rw [hplaces, List.map_eq_nil_iff] at hnil
    subst hnil
    simp [Members.survey, Step.toValues] at h

/-! ### The branches of a conditional -/

section

variable {P : Place} {shell : Shell} {condition : String} {yes no : List Step}
  (hP : P.step = .conditional shell condition yes no)

include hP

/-- The first branch is found under its name. -/
theorem found_then (path : String) : (P.membersAt path "then").found
    = surveySteps "then" path P.awaited 0 (Step.toValues yes) := by
  have hfield : Wavefront.Fields.get? "then" P.step.fields
      = some (.array (Step.toValues yes)) := by
    rw [Step.get?_fields (by rw [hP, Step.toValue])]
    simp [Shell.toFields, commonFields, Policy.toFields]
  rw [Place.membersAt, membersAt_of_get? hfield]
  rfl

/-- The second branch is found under the name that it is written with. -/
theorem found_otherwise (path : String) : (P.membersAt path "otherwise").found
    = surveySteps "otherwise" path P.awaited 0 (Step.toValues no) := by
  refine found_membersAt_of_ifAny ?_ path P.awaited
  rw [Step.get?_fields (by rw [hP, Step.toValue])]
  simp [Shell.toFields, commonFields, Policy.toFields]

/-- The second branch is never written under its other name. -/
theorem found_else (path : String) : (P.membersAt path "else").found = {} := by
  have hfield : Wavefront.Fields.get? "else" P.step.fields = none := by
    rw [Step.get?_fields (by rw [hP, Step.toValue])]
    simp [Shell.toFields, commonFields, Policy.toFields]
  rw [Place.membersAt, membersAt_of_get?_eq_none hfield]
  rfl

end

/-- The fields of a conditional record the members of both branches. -/
theorem typedRecords_conditional {P : Place} {shell : Shell} {condition : String}
    {yes no : List Step} (hP : P.step = .conditional shell condition yes no)
    (hmembers : ∀ M ∈ P.members, ∀ path,
      (surveyStep path M.inherited M.step.toValue).survey.Flawless →
      Records (surveyStep path M.inherited M.step.toValue) [M])
    {path : String} (h : (P.surveyTyped path).Flawless) : TypedRecords P path := by
  have hkind : P.step.kind = "conditional" := by rw [hP, Step.kind]
  have hbody : P.step.bodyIds = [] := by
    rw [hP]
    rfl
  have hplaces : P.members = (yes.map fun s => ⟨s, P.awaited, P.innerHome⟩)
      ++ (no.map fun s => ⟨s, P.awaited, P.innerHome⟩) := by
    rw [Place.members, hP, Step.children, List.map_append]
  have hyes := found_then hP path
  have hno := found_otherwise hP path
  -- the other name of the second branch is never written
  have hnone := found_else hP path
  have htyped : P.surveyTyped path
      = requireText P.step.fields path "condition"
        ++ (P.membersAt path "then").survey (fieldPath path "then") true
        ++ (P.membersAt path "otherwise").survey (fieldPath path "otherwise") false
        ++ (P.membersAt path "else").survey (fieldPath path "else") false := by
    rw [Place.surveyTyped, hkind]
    rfl
  rw [htyped, flawless_append, flawless_append, flawless_append] at h
  obtain ⟨⟨⟨-, hyesflawless⟩, hnoflawless⟩, -⟩ := h
  have hyesrecords := hyes ▸ Members.flawless_found hyesflawless
  have hnorecords := hno ▸ Members.flawless_found hnoflawless
  refine ⟨⟨(surveySteps "then" path P.awaited 0 (Step.toValues yes)).survey
      ++ (surveySteps "otherwise" path P.awaited 0 (Step.toValues no)).survey,
    (surveySteps "then" path P.awaited 0 (Step.toValues yes)).ids
      ++ (surveySteps "otherwise" path P.awaited 0 (Step.toValues no)).ids⟩, ?_, ?_, ?_, ?_, ?_⟩
  · rw [hplaces] at hmembers ⊢
    refine (records_surveySteps ?_ hyesrecords).append (records_surveySteps ?_ hnorecords)
    · intro s hs
      exact hmembers ⟨s, P.awaited, P.innerHome⟩
        (List.mem_append_left _ (List.mem_map.2 ⟨s, hs, rfl⟩))
    · intro s hs
      exact hmembers ⟨s, P.awaited, P.innerHome⟩
        (List.mem_append_right _ (List.mem_map.2 ⟨s, hs, rfl⟩))
  · have hids : P.memberIds path = (P.membersAt path "then").ids
        ++ (P.membersAt path "otherwise").ids ++ (P.membersAt path "else").ids := by
      rw [Place.memberIds, hkind]
      rfl
    rw [hids, Members.ids_eq, Members.ids_eq, Members.ids_eq, hyes, hno, hnone, List.append_nil]
  · simp [htyped, hbody, hyes, hno, hnone]
  · simp [htyped, hbody, hyes, hno, hnone]
  · exact fun hparallel => absurd (hkind.symm.trans hparallel) (by decide)

/-- The fields of any type record the members. -/
theorem typedRecords {P : Place}
    (hmembers : ∀ M ∈ P.members, ∀ path,
      (surveyStep path M.inherited M.step.toValue).survey.Flawless →
      Records (surveyStep path M.inherited M.step.toValue) [M])
    {path : String} (h : (P.surveyTyped path).Flawless) : TypedRecords P path := by
  obtain ⟨step, inherited, home⟩ := P
  cases step with
  | parallel shell steps => exact typedRecords_parallel rfl hmembers h
  | conditional shell condition yes no => exact typedRecords_conditional rfl hmembers h
  | tool s =>
    refine typedRecords_of_body rfl rfl (by simp [Step.kind]) ?_ ?_
    · exact ids_requireText _ _ _
    · exact congrArg (List.map Declared.entry) (declared_requireText _ _ _)
  | final s =>
    refine typedRecords_of_body rfl rfl (by simp [Step.kind]) ?_ ?_
    · exact ids_allowText _ _ _
    · exact congrArg (List.map Declared.entry) (declared_allowText _ _ _)
  | loop s =>
    have hbody : Wavefront.Fields.get? "step" (Step.fields (.loop s)) = some s.body.toValue := by
      simp [Step.get?_fields (s := .loop s) rfl, commonFields, Policy.toFields]
    have hsurvey := surveyBody_loop s (fieldPath path "step")
    refine typedRecords_of_body rfl rfl (by simp [Step.kind]) ?_ ?_
    · simp [Place.surveyTyped, Step.kind, surveyTyped, hbody, Place.id, Step.id, hsurvey.1]
    · simp [Place.surveyTyped, Step.kind, surveyTyped, hbody, Place.id, Step.id, hsurvey.2]
  | reduce s =>
    have hreducer : Wavefront.Fields.get? "reducer" (Step.fields (.reduce s))
        = some s.reducer.toValue := by
      simp [Step.get?_fields (s := .reduce s) rfl, commonFields, Policy.toFields]
    have hsurvey := surveyReducer_toValue s (fieldPath path "reducer")
    refine typedRecords_of_body rfl rfl (by simp [Step.kind]) ?_ ?_
    · simp [Place.surveyTyped, Step.kind, surveyTyped, hreducer, Place.id, Step.id, hsurvey.1]
    · simp [Place.surveyTyped, Step.kind, surveyTyped, hreducer, Place.id, Step.id, hsurvey.2]

/-- The survey of a written step records the step and all that is inside it. -/
theorem records_surveyStep (P : Place) (path : String)
    (h : (surveyStep path P.inherited P.step.toValue).survey.Flawless) :
    Records (surveyStep path P.inherited P.step.toValue) [P] := by
  induction P using Place.induction generalizing path with
  | h P ih =>
    obtain ⟨hne, hflawless, hids, hknown, hdeclared⟩ := surveyStep_toValue h
    obtain ⟨s, hs, hmemberIds, htypedIds, htypedDeclared, hgroup⟩ := typedRecords ih hflawless
    have hwithin : [P].flatMap Place.within = P :: P.members.flatMap Place.within := by
      rw [List.flatMap_singleton, Place.within_eq]
    refine ⟨hids, ?_, ?_, ?_, ?_⟩
    · rw [hknown, htypedIds, hs.known, hwithin, List.flatMap_cons]
      rfl
    · rw [hdeclared, List.map_append, htypedDeclared, hwithin, List.flatMap_cons, hmemberIds,
        hs.ids, List.append_assoc, Place.entries, List.append_assoc]
      refine List.Perm.append_left _ ?_
      -- the step itself is declared after those inside it
      exact (hs.declared.append_right _).trans List.perm_append_comm
    · rw [hwithin]
      exact List.forall_mem_cons.2 ⟨hne, hs.nonempty⟩
    · rw [hwithin]
      exact List.forall_mem_cons.2 ⟨hgroup, hs.groups⟩

end Survey

/-! ## Plans that pass the check -/

namespace Plan

/-- The survey of the steps of a plan that passes the check. -/
def survey (p : Plan) : Survey := (Survey.surveySteps "steps" "" [] 0 (Step.toValues p.steps)).survey

variable {p : Plan}

/-- The survey of a plan that passes is clean. -/
theorem clean_of_check (h : check p.toValue = .ok ()) : p.survey.Clean := by
  have hissues : issues p.toValue = [] := by
    rw [check] at h
    split at h
    · assumption
    · cases h
  rw [toValue, Value.ofFields, issues, List.append_eq_nil_iff] at hissues
  have hcheck := hissues.2
  simp only [Fields.get?_ofList, Fields.last?_cons, Fields.last?_nil, Option.none_or, if_true,
    Option.some_or] at hcheck
  cases hvalues : Step.toValues p.steps with
  | nil =>
    rw [hvalues] at hcheck
    cases hcheck
  | cons item items =>
    refine Survey.clean_of_issues_eq_nil ?_
    rw [survey, hvalues]
    rwa [hvalues] at hcheck

/-- The steps of a plan, each at its place. -/
theorem flatMap_within (p : Plan) :
    (p.steps.map fun s => (⟨s, [], none⟩ : Place)).flatMap Place.within = p.places :=
  (Place.placesAll_eq_flatMap [] none p.steps).symm

/-- A flawless survey of a written plan records the places of the plan. -/
theorem records_of_flawless (h : p.survey.Flawless) :
    Survey.Records (Survey.surveySteps "steps" "" [] 0 (Step.toValues p.steps))
      (p.steps.map fun s => ⟨s, [], none⟩) :=
  Survey.records_surveySteps (fun s _ path => Survey.records_surveyStep ⟨s, [], none⟩ path) h

theorem ids_survey_of_flawless (h : p.survey.Flawless) : p.survey.ids = p.ids := by
  have hknown := (records_of_flawless h).known
  rwa [flatMap_within] at hknown

/-- What is declared are the entries of the places. -/
theorem declared_perm_of_flawless (h : p.survey.Flawless) :
    (p.survey.declared.map Survey.Declared.entry).Perm (p.places.flatMap Place.entries) := by
  have hdeclared := (records_of_flawless h).declared
  rwa [flatMap_within] at hdeclared

/-- The survey of a plan that passes records the places of the plan. -/
theorem records_of_check (h : check p.toValue = .ok ()) :
    Survey.Records (Survey.surveySteps "steps" "" [] 0 (Step.toValues p.steps))
      (p.steps.map fun s => ⟨s, [], none⟩) :=
  records_of_flawless (clean_of_check h).flawless

theorem ids_survey_of_check (h : check p.toValue = .ok ()) : p.survey.ids = p.ids :=
  ids_survey_of_flawless (clean_of_check h).flawless

theorem declared_perm_of_check (h : check p.toValue = .ok ()) :
    (p.survey.declared.map Survey.Declared.entry).Perm (p.places.flatMap Place.entries) :=
  declared_perm_of_flawless (clean_of_check h).flawless

/-- Every id is declared, and none twice. -/
theorem declared_ids_perm_of_check (h : check p.toValue = .ok ()) :
    (p.survey.declared.map (·.id)).Perm p.ids := by
  have hperm := (declared_perm_of_check h).map Prod.fst
  rw [List.map_map, List.map_flatMap] at hperm
  refine hperm.trans (List.Perm.flatMap_left _ fun P _ => ?_)
  rw [Place.entries, List.map_append, List.map_map]
  have hbodies : P.step.bodyIds.map (Prod.fst ∘ fun b => (b, ([] : List String), [P.id]))
      = P.step.bodyIds := List.map_id _
  rw [hbodies]
  exact List.perm_append_comm

/-- Every entry of a place has been declared. -/
theorem exists_declared_of_mem_entries (h : check p.toValue = .ok ()) {P : Place}
    (hP : P ∈ p.places) {entry : String × List String × List String} (hentry : entry ∈ P.entries) :
    ∃ d ∈ p.survey.declared, d.id = entry.1 ∧ d.dependsOn = entry.2.1 ∧ d.implied = entry.2.2 := by
  have hmem := (declared_perm_of_check h).mem_iff.2 (List.mem_flatMap.2 ⟨P, hP, hentry⟩)
  obtain ⟨d, hd, rfl⟩ := List.mem_map.1 hmem
  exact ⟨d, hd, rfl, rfl, rfl⟩

/-- Every place has been declared, with what it names and what its standing implies. -/
theorem exists_declared_step (h : check p.toValue = .ok ()) {P : Place} (hP : P ∈ p.places) :
    ∃ d ∈ p.survey.declared, d.id = P.id ∧ d.dependsOn = P.step.dependsOn
      ∧ d.implied = P.inherited ++ P.members.map Place.id :=
  exists_declared_of_mem_entries h hP (List.mem_append_right _ List.mem_cons_self)

/-- Every body has been declared as waiting for its step. -/
theorem exists_declared_body (h : check p.toValue = .ok ()) {P : Place} (hP : P ∈ p.places)
    {b : String} (hb : b ∈ P.step.bodyIds) :
    ∃ d ∈ p.survey.declared, d.id = b ∧ d.dependsOn = [] ∧ d.implied = [P.id] :=
  exists_declared_of_mem_entries h hP
    (List.mem_append_left _ (List.mem_map.2 ⟨b, hb, rfl⟩))

/-- A plan that passes names no id that is not there. -/
theorem known_of_check (h : check p.toValue = .ok ()) :
    ∀ P ∈ p.places, ∀ d ∈ P.step.dependsOn, d ∈ p.ids := by
  intro P hP d hd
  obtain ⟨declared, hdeclared, -, hdepends, -⟩ := exists_declared_step h hP
  rw [← ids_survey_of_check h]
  exact (clean_of_check h).known declared hdeclared d (hdepends ▸ hd)

/-- The check looks for circles in a graph that has all of what waits for what. -/
theorem edge_of_waits (h : check p.toValue = .ok ()) {a b : String} (hab : p.Waits a b) :
    Digraph.Edge (Survey.waits p.ids p.survey.declared) a b := by
  have hnodup : (p.survey.declared.map (·.id)).Nodup := by
    rw [(declared_ids_perm_of_check h).nodup_iff, ← ids_survey_of_check h]
    exact (clean_of_check h).nodup
  -- what is waited for was named or inherited; members and owners are implied
  cases hab with
  | @awaited P hP _ hd =>
    obtain ⟨declared, hdeclared, hid, hdepends, himplied⟩ := exists_declared_step h hP
    rw [← hid]
    refine Survey.edge_waits hnodup hdeclared ?_ (awaited_mem_ids (known_of_check h) hP b hd)
    rw [hdepends, himplied]
    rcases List.mem_append.1 hd with hd | hd
    · exact List.mem_append_right _ (List.mem_append_left _ hd)
    · exact List.mem_append_left _ hd
  | @member P M hP hM =>
    obtain ⟨declared, hdeclared, hid, -, himplied⟩ := exists_declared_step h hP
    have hMp : M ∈ p.places := mem_places_of_mem_within hP (Place.member_mem_within hM)
    rw [← hid]
    refine Survey.edge_waits hnodup hdeclared ?_ (id_mem_ids hMp)
    rw [himplied]
    exact List.mem_append_right _ (List.mem_append_right _ (List.mem_map.2 ⟨M, hM, rfl⟩))
  | @body P hP b hb =>
    obtain ⟨declared, hdeclared, hid, -, himplied⟩ := exists_declared_body h hP hb
    rw [← hid]
    refine Survey.edge_waits hnodup hdeclared ?_ (id_mem_ids hP)
    rw [himplied]
    exact List.mem_append_right _ List.mem_cons_self

/-- What the check of a plan document stands for. -/
theorem sound_of_check (h : check p.toValue = .ok ()) : p.Sound := by
  have hclean := clean_of_check h
  have hrecords := records_of_check h
  have hids := ids_survey_of_check h
  refine ⟨?_, ?_, known_of_check h, ?_, ?_⟩
  · rw [← hids]
    exact hclean.nodup
  · intro hmem
    obtain ⟨P, hP, hown⟩ := mem_ids.1 hmem
    rcases List.mem_cons.1 hown with hid | hb
    · rw [← flatMap_within] at hP
      exact hrecords.nonempty P hP hid.symm
    · exact Step.ne_empty_of_mem_bodyIds hb rfl
  · intro id hid
    obtain ⟨d, hd, rfl⟩ := List.mem_map.1 ((declared_ids_perm_of_check h).mem_iff.2 hid)
    have hgrounded := hclean.grounded d hd
    rw [hids] at hgrounded
    exact hgrounded.mono fun a b hab => edge_of_waits h hab
  · intro P hP
    rw [← flatMap_within] at hP
    exact hrecords.groups P hP

end Plan

end Wavefront
