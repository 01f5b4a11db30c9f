/-
What it says of a document that its survey has nothing to object to.

The survey of a field is flawless exactly when the field has the form that is asked for, and the
survey of a step exactly when those of its fields are. Every statement here is such an equivalence;
the ids and the declarations that a survey notes are not looked at.

`Value.membersInduction` is how a document is gone through: from the items of the arrays at the
fields of an object to the object.
-/
import Wavefront.Plan.Document
import Wavefront.Proofs.Plan.Survey
import Wavefront.Proofs.Plan.Written

set_option autoImplicit false

namespace Wavefront

/-! ## Documents -/

/-- What stands at a key is smaller than the fields, which is what the walk through a document goes
by. -/
theorem Fields.sizeOf_lt_of_get? {key : String} {fields : List (String × Value)} {v : Value}
    (h : get? key fields = some v) : sizeOf v < sizeOf fields := by
  induction fields with
  | nil => cases h
  | cons pair rest ih =>
    obtain ⟨k, w⟩ := pair
    rw [get?_cons] at h
    rw [List.cons.sizeOf_spec, Prod.mk.sizeOf_spec]
    split at h
    · have hrest := ih h
      omega
    · split at h
      · obtain rfl := Option.some.inj h
        omega
      · cases h

/-- What holds of a value as soon as it holds of all that stands in the arrays at its fields holds
of every value. -/
theorem Value.membersInduction {motive : Value → Prop}
    (h : ∀ v, (∀ fields key items, v = .object fields →
      Fields.get? key fields = some (.array items) → ∀ item ∈ items, motive item) → motive v)
    (v : Value) : motive v := by
  -- the items of an array at a field are smaller than the object
  induction hn : sizeOf v using Nat.strongRecOn generalizing v with
  | ind n ih =>
    subst hn
    refine h v ?_
    rintro fields key items rfl hitems item hitem
    refine ih _ ?_ item rfl
    have hfield := Fields.sizeOf_lt_of_get? hitems
    have hmember := List.sizeOf_lt_of_mem hitem
    rw [Value.array.sizeOf_spec] at hfield
    rw [Value.object.sizeOf_spec]
    omega

namespace Survey

/-! ## Single fields -/

/-- The field holds a text of more than blanks. -/
def HasText (fields : Fields) (field : String) : Prop :=
  ∃ s, usableText? fields field = some s

/-- The field holds a text if it is there. -/
def TextIfAny (fields : Fields) (field : String) : Prop :=
  ∀ v, Wavefront.Fields.get? field fields = some v → v.isString = true

/-- The field holds a number between two bounds if it is there. -/
def NumberIfAny (fields : Fields) (field : String) (least : Nat) (most : Option Nat) : Prop :=
  ∀ v, Wavefront.Fields.get? field fields = some v → isWithin least most v = true

/-- The field holds a reference to a collection. -/
def HasReference (fields : Fields) (field : String) : Prop :=
  ∃ v, Wavefront.Fields.get? field fields = some v ∧ isReference v = true

/-- What is waited for, if it is there, is an array of ids. -/
def IdsIfAny (fields : Fields) : Prop :=
  ∀ v, Wavefront.Fields.get? "depends_on" fields = some v →
    ∃ items, v = .array items ∧ ∀ item ∈ items, item.isString = true

/-- The schema, if it is there, has a form that a schema can have. -/
def SchemaIfAny (fields : Fields) : Prop :=
  ∀ v, Wavefront.Fields.get? "input_schema" fields = some v → (v.isObject || v.bool?.isSome) = true

/-- Ids are nothing to object to. -/
@[simp] theorem flawless_of_ids (ids : List String) (path : String) (declared : List Declared) :
    Flawless ⟨ids.map (.id · path), declared⟩ := by
  intro i hi
  obtain ⟨id, -, h⟩ := List.mem_map.1 hi
  cases h

@[simp] theorem flawless_empty : Flawless {} := fun _ hi => absurd hi List.not_mem_nil

section

variable {fields : Fields} {path field : String}

/-- A text is usable if it stands there and is not blank. -/
theorem usableText?_eq_some {s : String} :
    usableText? fields field = some s
      ↔ Wavefront.Fields.get? field fields = some (.string s) ∧ Text.allBlank s = false := by
  unfold usableText?
  split
  · rename_i t ht
    rw [ht, Option.some.injEq, Value.string.injEq]
    cases hblank : Text.allBlank t with
    | true =>
      rw [if_pos rfl]
      refine iff_of_false nofun ?_
      rintro ⟨rfl, h⟩
      exact absurd (hblank.symm.trans h) Bool.noConfusion
    | false =>
      rw [if_neg Bool.false_ne_true, Option.some.injEq]
      exact ⟨fun h => ⟨h, h ▸ hblank⟩, fun h => h.1⟩
  · rename_i hnone
    refine iff_of_false nofun ?_
    rintro ⟨h, -⟩
    exact hnone s h

/-- A needed text is there and not blank. -/
theorem flawless_requireText : (requireText fields path field).Flawless ↔ HasText fields field := by
  simp only [HasText, usableText?_eq_some]
  unfold requireText
  split
  · rename_i heq
    simp [heq]
  · rename_i v hne heq
    simp only [heq, not_flawless_problem, Option.some.injEq, false_iff, not_exists, not_and]
    exact fun s hs => absurd hs (hne s)
  · rename_i heq
    simp [heq]

/-- A text that is there is a text. -/
theorem flawless_allowText : (allowText fields path field).Flawless ↔ TextIfAny fields field := by
  unfold allowText TextIfAny
  split
  · rename_i heq
    simp [heq]
  · rename_i heq
    simp [heq]

/-- A number that is there lies within its bounds. -/
theorem flawless_allowNumber {least : Nat} {most : Option Nat} :
    (allowNumber fields path field least most).Flawless
      ↔ NumberIfAny fields field least most := by
  unfold allowNumber NumberIfAny
  split
  · rename_i heq
    simp [heq]
  · rename_i heq
    simp [heq]

/-- A needed reference is there. -/
theorem flawless_requireReference :
    (requireReference fields path field).Flawless ↔ HasReference fields field := by
  unfold requireReference HasReference
  split
  · rename_i heq
    simp [heq]
  · rename_i heq
    simp [heq]

/-- A row of checks objects to nothing if none of them does. -/
theorem flawless_foldl_check (items : List (Value × Nat)) (s : Survey) (p : Problem) :
    (items.foldl (fun s (item, j) =>
        s ++ check item.isString (itemPath path field j) p) s).Flawless
      ↔ s.Flawless ∧ ∀ pair ∈ items, pair.1.isString = true := by
  induction items generalizing s with
  | nil => simp
  | cons pair items ih =>
    rw [List.foldl_cons, ih, flawless_append, flawless_check, List.forall_mem_cons, and_assoc]

/-- The ids that are waited for are texts. -/
theorem flawless_surveyDependsOn : (surveyDependsOn fields path).Flawless ↔ IdsIfAny fields := by
  unfold surveyDependsOn IdsIfAny
  split
  · rename_i heq
    simp [heq]
  · rename_i items heq
    rw [flawless_foldl_check]
    simp only [heq, Option.some.injEq, forall_eq', Value.array.injEq, exists_eq_left']
    refine ⟨fun h item hitem => ?_, fun h => ⟨flawless_empty, fun pair hpair => ?_⟩⟩
    · obtain ⟨j, hj⟩ := List.mem_iff_getElem?.1 hitem
      exact h.2 (item, j) (List.mem_zipIdx_iff_getElem?.2 hj)
    · exact h pair.1 (List.mem_of_getElem? (List.mem_zipIdx_iff_getElem?.1 hpair))
  · rename_i v hne heq
    simp only [heq, Option.some.injEq, forall_eq', not_flawless_problem, false_iff, not_exists]
    rintro items ⟨rfl, -⟩
    exact hne items rfl

/-- What any step has to be like. -/
structure HasCommon (fields : Fields) : Prop where
  output : TextIfAny fields "output"
  timeoutMs : NumberIfAny fields "timeout_ms" 1 none
  maxRetries : NumberIfAny fields "max_retries" 0 (some Settings.maxRetriesLimit)
  inputSchema : SchemaIfAny fields

/-- What every step may have, in the order in which the survey looks at it. -/
theorem hasCommon_iff : HasCommon fields ↔ ((TextIfAny fields "output"
    ∧ NumberIfAny fields "timeout_ms" 1 none)
    ∧ NumberIfAny fields "max_retries" 0 (some Settings.maxRetriesLimit)) ∧ SchemaIfAny fields := by
  constructor
  · rintro ⟨houtput, htimeout, hretries, hschema⟩
    exact ⟨⟨⟨houtput, htimeout⟩, hretries⟩, hschema⟩
  · rintro ⟨⟨⟨houtput, htimeout⟩, hretries⟩, hschema⟩
    exact ⟨houtput, htimeout, hretries, hschema⟩

/-- The fields that every step may have are as they should be. -/
theorem flawless_surveyCommon : (surveyCommon fields path).Flawless ↔ HasCommon fields := by
  rw [hasCommon_iff, surveyCommon, flawless_append, flawless_append, flawless_append,
    flawless_allowText, flawless_allowNumber, flawless_allowNumber]
  refine and_congr_right fun _ => ?_
  unfold SchemaIfAny
  split
  · rename_i heq
    simp [heq]
  · rename_i heq
    simp [heq]

/-- A type is named that there is, or a tool. -/
theorem flawless_surveyType :
    (surveyType fields path).Flawless ↔ ∃ type, typeOf? fields = some type := by
  rw [← Option.isSome_iff_exists]
  unfold surveyType
  split
  · rename_i h
    simp [h]
  · rename_i h
    refine iff_of_false ?_ h
    split <;> exact not_flawless_problem _ _

end

/-! ## Bodies and reducers -/

/-- The fields of a tool step that runs inside another step, as far as they are looked at. -/
structure IsBody (fields : Fields) : Prop where
  tool : HasText fields "tool"
  output : TextIfAny fields "output"

/-- The field holds a body. -/
def HasBody (fields : Fields) (field : String) : Prop :=
  ∃ body, Wavefront.Fields.get? field fields = some (.object body) ∧ IsBody body

/-- The field holds the name of a reducer or a body. -/
def HasReducer (fields : Fields) (field : String) : Prop :=
  (∃ s, Wavefront.Fields.get? field fields = some (.string s) ∧ s ≠ "") ∨ HasBody fields field

/-- A body is as it should be; nothing is asked of its dependencies and its limits. -/
theorem flawless_surveyBody {fields : Fields} {field path : String} {owner : Option String} :
    (surveyBody (Wavefront.Fields.get? field fields) path owner).Flawless
      ↔ HasBody fields field := by
  unfold surveyBody HasBody
  split
  · rename_i heq
    simp [heq]
  · rename_i body heq
    simp only [heq, flawless_append, flawless_requireText, flawless_allowText, Option.some.injEq,
      Value.object.injEq, exists_eq_left']
    refine (and_iff_left ?_).trans ⟨fun h => ⟨h.1, h.2⟩, fun h => ⟨h.1, h.2⟩⟩
    -- an id that is there is noted, and nothing else is said about it
    split
    · split
      · exact flawless_empty
      · exact flawless_of_ids [_] path _
    · exact flawless_empty
  · rename_i v hne heq
    refine iff_of_false (not_flawless_problem _ _) ?_
    rintro ⟨body, hbody, -⟩
    exact hne body (Option.some.inj (heq.symm.trans hbody))

/-- A reducer is a name or an inline body. -/
theorem flawless_surveyReducer {fields : Fields} {field path : String} {owner : Option String} :
    (surveyReducer (Wavefront.Fields.get? field fields) path owner).Flawless
      ↔ HasReducer fields field := by
  unfold surveyReducer HasReducer
  split
  · rename_i heq
    simp [heq, HasBody]
  · rename_i heq
    rw [← heq, flawless_surveyBody]
    simp [heq]
  · rename_i v hstring hobject heq
    refine iff_of_false (not_flawless_problem _ _) ?_
    rintro (⟨s, hs, -⟩ | ⟨body, hbody, -⟩)
    · exact hstring s (Option.some.inj (heq.symm.trans hs))
    · exact hobject body (Option.some.inj (heq.symm.trans hbody))
  · rename_i heq
    simp [heq, HasBody]

/-! ## Steps -/

/-- The types that a step can name are the tags. -/
theorem exists_tag_of_typeOf? {fields : Fields} {type : String} (h : typeOf? fields = some type) :
    ∃ tag : Step.Tag, tag.name = type := by
  have hmem : type ∈ stepTypes := by
    unfold typeOf? at h
    split at h
    · split at h
      · rename_i hmem
        exact Option.some.inj h ▸ hmem
      · cases h
    · cases h
    · split at h
      · exact Option.some.inj h ▸ List.mem_cons_self
      · cases h
  simp only [stepTypes, List.mem_cons, List.not_mem_nil, or_false] at hmem
  rcases hmem with rfl | rfl | rfl | rfl | rfl | rfl
  · exact ⟨.tool, rfl⟩
  · exact ⟨.loop, rfl⟩
  · exact ⟨.parallel, rfl⟩
  · exact ⟨.reduce, rfl⟩
  · exact ⟨.conditional, rfl⟩
  · exact ⟨.final, rfl⟩

/-- What a step of a type has to be like, given what is asked of a field that may or has to hold
steps. -/
def HasForm (fields : Fields) (members : String → Bool → Prop) : Step.Tag → Prop
  | .tool => HasText fields "tool"
  | .loop =>
      HasReference fields "over" ∧ HasText fields "as" ∧ HasBody fields "step"
        ∧ NumberIfAny fields "concurrency" 1 none
  | .parallel => members "steps" true
  | .reduce =>
      HasReference fields "input" ∧ HasText fields "as" ∧ HasText fields "output"
        ∧ NumberIfAny fields "concurrency" 1 none ∧ HasReducer fields "reducer"
  | .conditional =>
      HasText fields "condition" ∧ members "then" true ∧ members "otherwise" false
        ∧ members "else" false
  | .final => TextIfAny fields "function"

/-- What a step has to be like, given what is asked of a field that may or has to hold steps. -/
structure IsStep (members : String → Bool → Prop) (fields : Fields) (tag : Step.Tag) : Prop where
  id : HasText fields "id"
  type : typeOf? fields = some tag.name
  dependsOn : IdsIfAny fields
  form : HasForm fields members tag
  common : HasCommon fields

/-- What the survey of a step comes upon at a field that may hold steps. -/
def surveyMembers (fields : Fields) (path key : String) (scope : List String) (needed : Bool) :
    Survey :=
  (membersAt key path scope fields).survey (fieldPath path key) needed

/-- The fields of a type are as they should be. -/
theorem flawless_surveyTyped {fields : Fields} {path : String} {scope : List String}
    {id : Option String} (tag : Step.Tag) :
    (surveyTyped fields path (some tag.name) id (membersAt "steps" path scope fields)
        (membersAt "then" path scope fields) (membersAt "otherwise" path scope fields)
        (membersAt "else" path scope fields)).Flawless
      ↔ HasForm fields (fun key needed => (surveyMembers fields path key scope needed).Flawless)
        tag := by
  -- each type has its own fields; the survey adds them up in the order of `HasForm`
  cases tag with
  | tool => exact flawless_requireText
  | loop =>
    have htyped : surveyTyped fields path (some Step.Tag.loop.name) id
        (membersAt "steps" path scope fields) (membersAt "then" path scope fields)
        (membersAt "otherwise" path scope fields) (membersAt "else" path scope fields)
        = requireReference fields path "over" ++ requireText fields path "as"
          ++ surveyBody (Wavefront.Fields.get? "step" fields) (fieldPath path "step") id
          ++ allowNumber fields path "concurrency" 1 none := rfl
    rw [htyped, flawless_append, flawless_append, flawless_append, flawless_requireReference,
      flawless_requireText, flawless_surveyBody, flawless_allowNumber, and_assoc, and_assoc]
    rfl
  | parallel => exact Iff.rfl
  | reduce =>
    have htyped : surveyTyped fields path (some Step.Tag.reduce.name) id
        (membersAt "steps" path scope fields) (membersAt "then" path scope fields)
        (membersAt "otherwise" path scope fields) (membersAt "else" path scope fields)
        = requireReference fields path "input" ++ requireText fields path "as"
          ++ requireText fields path "output" ++ allowNumber fields path "concurrency" 1 none
          ++ surveyReducer (Wavefront.Fields.get? "reducer" fields) (fieldPath path "reducer") id :=
      rfl
    rw [htyped, flawless_append, flawless_append, flawless_append, flawless_append,
      flawless_requireReference, flawless_requireText, flawless_requireText, flawless_allowNumber,
      flawless_surveyReducer, and_assoc, and_assoc, and_assoc]
    rfl
  | conditional =>
    have htyped : surveyTyped fields path (some Step.Tag.conditional.name) id
        (membersAt "steps" path scope fields) (membersAt "then" path scope fields)
        (membersAt "otherwise" path scope fields) (membersAt "else" path scope fields)
        = requireText fields path "condition" ++ surveyMembers fields path "then" scope true
          ++ surveyMembers fields path "otherwise" scope false
          ++ surveyMembers fields path "else" scope false := rfl
    rw [htyped, flawless_append, flawless_append, flawless_append, flawless_requireText, and_assoc,
      and_assoc]
    rfl
  | final => exact flawless_allowText

/-- A step is as it should be if it has a type and the fields of that type. -/
theorem flawless_surveyStep_object {fields : Fields} {path : String} {inherited : List String} :
    (surveyStep path inherited (.object fields)).survey.Flawless
      ↔ ∃ tag, IsStep (fun key needed =>
          (surveyMembers fields path key (inherited ++ dependsOn fields) needed).Flawless)
        fields tag := by
  rw [surveyStep, surveyFields]
  simp only [flawless_append, flawless_requireText, flawless_surveyType, flawless_surveyDependsOn,
    flawless_surveyCommon, flawless_of_ids, and_true]
  have hdeclared : ∀ declared, Flawless ⟨[], declared⟩ := fun _ _ hi => absurd hi List.not_mem_nil
  constructor
  · rintro ⟨⟨⟨⟨⟨hid, type, htype⟩, hdepends⟩, hform⟩, hcommon⟩, -⟩
    obtain ⟨tag, rfl⟩ := exists_tag_of_typeOf? htype
    rw [htype] at hform
    exact ⟨tag, hid, htype, hdepends, (flawless_surveyTyped tag).1 hform, hcommon⟩
  · rintro ⟨tag, hid, htype, hdepends, hform, hcommon⟩
    rw [htype]
    exact ⟨⟨⟨⟨⟨hid, _, rfl⟩, hdepends⟩, (flawless_surveyTyped tag).2 hform⟩, hcommon⟩,
      hdeclared _⟩

/-! ## Steps inside steps -/

/-- Steps are as they should be if each of them is, wherever its place. -/
theorem flawless_surveySteps {field path : String} {scope : List String} {i : Nat}
    {items : List Value} :
    (surveySteps field path scope i items).survey.Flawless
      ↔ ∀ j item, items[j]? = some item →
        (surveyStep (itemPath path field (i + j)) scope item).survey.Flawless := by
  induction items generalizing i with
  | nil =>
    rw [surveySteps]
    simp
  | cons item items ih =>
    rw [surveySteps, flawless_append, ih]
    constructor
    · rintro ⟨hfirst, hrest⟩ j w hj
      cases j with
      | zero => exact Option.some.inj hj ▸ hfirst
      | succ j =>
        have h := hrest j w hj
        rwa [Nat.add_assoc, Nat.add_comm 1 j] at h
    · intro h
      refine ⟨h 0 item rfl, fun j w hj => ?_⟩
      have h := h (j + 1) w hj
      rwa [Nat.add_assoc, Nat.add_comm 1 j]

/-- The field holds steps that satisfy a condition, or it is not needed and not there. -/
def HasSteps (item : Value → Prop) (fields : Fields) (field : String) (needed : Bool) : Prop :=
  (needed = false ∧ Wavefront.Fields.get? field fields = none)
    ∨ ∃ items, Wavefront.Fields.get? field fields = some (.array items)
      ∧ (needed = true → items ≠ []) ∧ ∀ v ∈ items, item v

/-- If the place of a step does not count for what is found wrong with it, it does not count for the
steps at a field. -/
theorem flawless_surveyMembers {item : Value → Prop} {fields : Fields} {path field : String}
    {scope : List String} {needed : Bool}
    (hitem : ∀ items, Wavefront.Fields.get? field fields = some (.array items) → ∀ v ∈ items,
      ∀ path, (surveyStep path scope v).survey.Flawless ↔ item v) :
    (surveyMembers fields path field scope needed).Flawless
      ↔ HasSteps item fields field needed := by
  rw [surveyMembers, membersAt_eq, HasSteps]
  cases hfield : Wavefront.Fields.get? field fields with
  | none => simp [Members.survey]
  | some v =>
    cases v with
    | array items =>
      -- the path is part of the survey and no part of what is asked, so it may be any
      have hall : (surveySteps field path scope 0 items).survey.Flawless ↔ ∀ v ∈ items, item v := by
        rw [flawless_surveySteps]
        constructor
        · intro h v hv
          obtain ⟨j, hj⟩ := List.mem_iff_getElem?.1 hv
          exact (hitem items hfield v hv _).1 (h j v hj)
        · intro h j v hj
          have hv := List.mem_of_getElem? hj
          exact (hitem items hfield v hv _).2 (h v hv)
      simp only [membersOf.eq_1, Members.survey, flawless_append, flawless_check, hall]
      cases needed <;> simp
    | null => simp [membersOf, Members.survey]
    | bool b => simp [membersOf, Members.survey]
    | number n => simp [membersOf, Members.survey]
    | string s => simp [membersOf, Members.survey]
    | object fields => simp [membersOf, Members.survey]

/-- The survey of a step has nothing to object to. Where the step stands does not count. -/
def Accepts (v : Value) : Prop := (surveyStep "" [] v).survey.Flawless

/-- A step survives its survey exactly if the document accepts it, whatever it inherits. -/
theorem flawless_surveyStep (path : String) (inherited : List String) (v : Value) :
    (surveyStep path inherited v).survey.Flawless ↔ Accepts v := by
  induction v using Value.membersInduction generalizing path inherited with
  | h v ih =>
    cases v with
    | object fields =>
      -- whatever the place, it comes to the same of the steps inside
      have h : ∀ path inherited, (surveyStep path inherited (.object fields)).survey.Flawless
          ↔ ∃ tag, IsStep (HasSteps Accepts fields) fields tag := by
        intro path inherited
        have hmembers : ∀ key needed,
            (surveyMembers fields path key (inherited ++ dependsOn fields) needed).Flawless
              ↔ HasSteps Accepts fields key needed := fun key needed =>
          flawless_surveyMembers fun items hitems v hv path =>
            ih fields key items rfl hitems v hv path _
        rw [flawless_surveyStep_object]
        simp only [hmembers]
      rw [Accepts, h, h]
    | null => simp [Accepts, surveyStep]
    | bool b => simp [Accepts, surveyStep]
    | number n => simp [Accepts, surveyStep]
    | string s => simp [Accepts, surveyStep]
    | array items => simp [Accepts, surveyStep]

/-- An object is accepted as a step of some type. -/
theorem accepts_object {fields : Fields} :
    Accepts (.object fields) ↔ ∃ tag, IsStep (HasSteps Accepts fields) fields tag := by
  have hmembers : ∀ key needed,
      (surveyMembers fields "" key ([] ++ dependsOn fields) needed).Flawless
        ↔ HasSteps Accepts fields key needed := fun key needed =>
    flawless_surveyMembers fun _ _ v _ path => flawless_surveyStep path _ v
  rw [Accepts, flawless_surveyStep_object]
  simp only [hmembers]

/-- What is accepted is an object. -/
theorem Accepts.exists_fields {v : Value} (h : Accepts v) :
    ∃ fields tag, v = .object fields ∧ IsStep (HasSteps Accepts fields) fields tag := by
  cases v with
  | object fields =>
    obtain ⟨tag, htag⟩ := accepts_object.1 h
    exact ⟨fields, tag, rfl, htag⟩
  | null => simp [Accepts, surveyStep] at h
  | bool b => simp [Accepts, surveyStep] at h
  | number n => simp [Accepts, surveyStep] at h
  | string s => simp [Accepts, surveyStep] at h
  | array items => simp [Accepts, surveyStep] at h

/-- Steps survive their survey exactly if each of them is accepted. -/
theorem flawless_surveySteps_iff {field path : String} {scope : List String} {items : List Value} :
    (surveySteps field path scope 0 items).survey.Flawless ↔ ∀ v ∈ items, Accepts v := by
  rw [flawless_surveySteps]
  simp only [flawless_surveyStep]
  constructor
  · intro h v hv
    obtain ⟨j, hj⟩ := List.mem_iff_getElem?.1 hv
    exact h j v hj
  · exact fun h j v hj => h v (List.mem_of_getElem? hj)

end Survey

end Wavefront
