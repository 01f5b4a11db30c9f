/-
Plans that have been loaded, written and loaded again.

What is written of a plan has been checked before, in the document from which the plan was read, but
for two things. A step of another type that was read as a call of a tool may have a tool that is
blank, and it has left behind the steps inside it and its body, which other steps may still wait
for. `Plan.reload_iff` says that nothing else can go wrong when the plan is checked again.

The survey of the written plan is compared with the survey of the document part by part. Its ids are
some of the ids of the document, in their order, and whatever it declares is declared there too,
with more that is implied. So no id can come up twice and waiting cannot go in a circle.
-/
import Mathlib.Data.Nat.Digits.Lemmas
import Wavefront.Proofs.Plan.Conversion
import Wavefront.Proofs.Plan.Expansion
import Wavefront.Proofs.Plan.RoundTrip
import Wavefront.Proofs.Text.Numeral

set_option autoImplicit false

namespace Wavefront

open Document

/-! ## Fields that are written as they were read -/

namespace Survey

section

variable {fields copy : Fields} {field : String}

/-- A text that was read is written back as it was. -/
theorem HasText.written (h : HasText fields field) {s : String}
    (hread : Document.required text fields field = some s)
    (hwritten : Wavefront.Fields.get? field copy = some (.string s)) : HasText copy field := by
  obtain ⟨t, ht⟩ := h
  obtain ⟨hfield, hblank⟩ := usableText?_eq_some.1 ht
  rw [required_of_get? hfield] at hread
  obtain rfl : t = s := Option.some.inj hread
  exact ⟨t, usableText?_eq_some.2 ⟨hwritten, hblank⟩⟩

/-- An optional text that is written passes. -/
theorem textIfAny_of_get?_eq_map {o : Option String}
    (h : Wavefront.Fields.get? field copy = o.map .string) : TextIfAny copy field := by
  intro v hv
  obtain ⟨s, -, rfl⟩ := Option.map_eq_some_iff.1 (h.symm.trans hv)
  rfl

theorem isWithin_congr {least : Nat} {most : Option Nat} {v w : Value} (h : v.word? = w.word?) :
    isWithin least most v = isWithin least most w := by
  rw [isWithin, isWithin, h]

/-- A number that was read and is written back keeps to its bounds. -/
theorem NumberIfAny.written {least : Nat} {most : Option Nat} (h : NumberIfAny fields field least most)
    {o : Option UInt64} (hread : optional word fields field = some o)
    (hwritten : Wavefront.Fields.get? field copy = o.map .ofWord) :
    NumberIfAny copy field least most := by
  intro v hv
  obtain ⟨w, rfl, rfl⟩ := Option.map_eq_some_iff.1 (hwritten.symm.trans hv)
  obtain ⟨u, hu, hw⟩ := exists_of_optional_eq_some hread
  rw [← h u hu]
  exact isWithin_congr ((word_ofWord w).trans hw.symm)

/-- A word of 32 bits is the same word with 64. -/
theorem word?_of_halfWord? {v : Value} {n : UInt32} (h : v.halfWord? = some n) :
    v.word? = some n.toUInt64 := by
  cases v with
  | number m =>
    rw [Value.halfWord?, Number.halfWord?] at h
    obtain ⟨w, hw, h⟩ := Option.bind_eq_some_iff.1 h
    obtain ⟨hsmall, h⟩ := Option.ite_none_right_eq_some.1 h
    have hn : w.toUInt32 = n := Option.some.inj h
    refine hw.trans (congrArg some ?_)
    rw [← hn, ← UInt64.toNat_inj, UInt32.toNat_toUInt64, UInt64.toNat_toUInt32]
    exact (Nat.mod_eq_of_lt hsmall).symm
  | null => cases h
  | bool b => cases h
  | string s => cases h
  | array items => cases h
  | object fields => cases h

/-- The same for words of half the width. -/
theorem NumberIfAny.written_half {least : Nat} {most : Option Nat}
    (h : NumberIfAny fields field least most) {o : Option UInt32}
    (hread : optional halfWord fields field = some o)
    (hwritten : Wavefront.Fields.get? field copy = o.map fun n => .ofWord n.toUInt64) :
    NumberIfAny copy field least most := by
  intro v hv
  obtain ⟨n, rfl, rfl⟩ := Option.map_eq_some_iff.1 (hwritten.symm.trans hv)
  obtain ⟨u, hu, hn⟩ := exists_of_optional_eq_some hread
  rw [← h u hu]
  exact isWithin_congr ((word_ofWord n.toUInt64).trans (word?_of_halfWord? hn).symm)

/-- A reference that was read is written back as it was. -/
theorem HasReference.written (h : HasReference fields field) {v : Value}
    (hread : required some fields field = some v)
    (hwritten : Wavefront.Fields.get? field copy = some v) : HasReference copy field := by
  obtain ⟨w, hw, href⟩ := h
  rw [required_of_get? hw] at hread
  exact ⟨v, hwritten, Option.some.inj hread ▸ href⟩

/-- A schema that was read is written back as it was. -/
theorem SchemaIfAny.written (h : SchemaIfAny fields) {o : Option Value}
    (hread : optional some fields "input_schema" = some o)
    (hwritten : Wavefront.Fields.get? "input_schema" copy = o) : SchemaIfAny copy := by
  intro v hv
  obtain rfl := hwritten.symm.trans hv
  obtain ⟨u, hu, huv⟩ := exists_of_optional_eq_some hread
  exact h v (hu.trans huv)

/-- Ids are written as texts, and left out if there are none. -/
theorem idsIfAny_of_get?_eq_map {ids : List String}
    (h : Wavefront.Fields.get? "depends_on" copy = ids.head?.map fun _ => ofTexts ids) :
    IdsIfAny copy := by
  intro v hv
  obtain ⟨_, -, rfl⟩ := Option.map_eq_some_iff.1 (h.symm.trans hv)
  refine ⟨_, rfl, fun item hitem => ?_⟩
  obtain ⟨id, -, rfl⟩ := List.mem_map.1 hitem
  rfl

end

/-- The body that was read is written as a body. -/
theorem HasBody.written {fields copy : Fields} {field : String} (h : HasBody fields field)
    {s : ToolStep} (hread : required ToolStep.ofValue? fields field = some s)
    (hwritten : Wavefront.Fields.get? field copy = some s.toValue) : HasBody copy field := by
  obtain ⟨body, hbody, his⟩ := h
  rw [required_of_get? hbody, ToolStep.ofValue?_eq_some] at hread
  obtain ⟨_, heq, hs⟩ := hread
  obtain rfl := Value.object.inj heq
  have hget := Step.get?_fields (s := .tool s) rfl
  refine ⟨Step.fields (.tool s), hwritten.trans (congrArg some (Step.toValue_eq (.tool s))), ?_, ?_⟩
  · refine his.tool.written hs.tool ?_
    simp [hget, commonFields, Policy.toFields]
  · refine textIfAny_of_get?_eq_map (o := s.output) ?_
    simp [hget, commonFields, Policy.toFields]

/-- A reducer that was read passes when it is written. -/
theorem HasReducer.written {fields copy : Fields} {field : String} (h : HasReducer fields field)
    {r : Reducer} (hread : required Reducer.ofValue? fields field = some r)
    (hwritten : Wavefront.Fields.get? field copy = some r.toValue) : HasReducer copy field := by
  obtain ⟨v, hv, hr⟩ := required_eq_some.1 hread
  rcases Reducer.ofValue?_eq_some.1 hr with ⟨tool, rfl, rfl⟩ | ⟨step, hstep, rfl⟩
  · rcases h with ⟨s, hs, hne⟩ | ⟨body, hbody, -⟩
    · obtain rfl : tool = s := by simpa using hv.symm.trans hs
      exact .inl ⟨tool, hwritten, hne⟩
    · cases hv.symm.trans hbody
  · rcases h with ⟨s, hs, -⟩ | hbody
    · obtain rfl := Option.some.inj (hv.symm.trans hs)
      cases hstep
    · exact .inr (hbody.written (required_eq_some.2 ⟨v, hv, hstep⟩) hwritten)

end Survey

/-! ## Steps that are written as they were read -/

namespace Step

open Survey

/-- The output of a step is written as a text. -/
theorem textIfAny_output (s : Step) : TextIfAny s.fields "output" := by
  cases s with
  | tool s =>
    refine textIfAny_of_get?_eq_map (o := s.output) ?_
    simp [get?_fields (s := .tool s) rfl, commonFields, Policy.toFields]
  | loop s =>
    refine textIfAny_of_get?_eq_map (o := s.output) ?_
    simp [get?_fields (s := .loop s) rfl, commonFields, Policy.toFields]
  | parallel shell steps =>
    refine textIfAny_of_get?_eq_map (o := shell.output) ?_
    simp [get?_fields (s := .parallel shell steps) (by rw [toValue]), Shell.toFields, commonFields,
      Policy.toFields]
  | reduce s =>
    refine textIfAny_of_get?_eq_map (o := some s.output) ?_
    simp [get?_fields (s := .reduce s) rfl, commonFields, Policy.toFields]
  | conditional shell condition yes no =>
    refine textIfAny_of_get?_eq_map (o := shell.output) ?_
    simp [get?_fields (s := .conditional shell condition yes no) (by rw [toValue]), Shell.toFields,
      commonFields, Policy.toFields]
  | final s =>
    refine textIfAny_of_get?_eq_map (o := s.output) ?_
    simp [get?_fields (s := .final s) rfl, commonFields, Policy.toFields]

/-- What every step may have passes when it is written. -/
theorem hasCommon_fields {fields : Document.Fields} {s : Step} (h : HasCommon fields)
    (hread : s.ReadFrom fields) : HasCommon s.fields := by
  have hcarries := s.carries_fields
  exact ⟨s.textIfAny_output, h.timeoutMs.written hread.policy.timeoutMs hcarries.timeoutMs,
    h.maxRetries.written_half hread.policy.maxRetries hcarries.maxRetries,
    h.inputSchema.written hread.policy.inputSchema hcarries.inputSchema⟩

/-- The steps that were read are written as steps. -/
theorem hasSteps_written {fields copy : Document.Fields} {key : String} {steps : List Step}
    (h : HasSteps Accepts fields key true) (hread : ReadAt key fields steps)
    (hcopy : Wavefront.Fields.get? key copy = some (.array (toValues steps)))
    (hsteps : ∀ t ∈ steps, Accepts t.toValue) : HasSteps Accepts copy key true := by
  obtain ⟨items, hitems, hforall⟩ := hread
  rcases h with ⟨hneeded, -⟩ | ⟨others, hothers, hne, -⟩
  · cases hneeded
  obtain rfl : items = others := by simpa using hitems.symm.trans hothers
  refine .inr ⟨_, hcopy, fun _ hnil => ?_, fun v hv => ?_⟩
  · -- no step less is written than was read
    have hlength := hforall.length_eq
    rw [toValues_eq_map, List.map_eq_nil_iff] at hnil
    rw [hnil, List.length_nil, List.length_eq_zero_iff] at hlength
    exact hne rfl hlength
  · rw [toValues_eq_map] at hv
    obtain ⟨t, ht, rfl⟩ := List.mem_map.1 hv
    exact hsteps t ht

/-- The fields of a type pass when they are written, if the members do. -/
theorem hasForm_fields {fields : Document.Fields} {s : Step}
    (h : HasForm fields (HasSteps Accepts fields) s.tag) (hread : s.ReadFrom fields)
    (hchildren : ∀ t ∈ s.children, Accepts t.toValue) :
    HasForm s.fields (HasSteps Accepts s.fields) s.tag := by
  cases s with
  | tool s =>
    refine HasText.written h (ToolStep.ReadFrom.tool hread) ?_
    simp [get?_fields (s := .tool s) rfl, commonFields, Policy.toFields]
  | loop s =>
    have hget := get?_fields (s := .loop s) rfl
    have hread : s.ReadFrom fields := hread
    obtain ⟨hitems, hbinder, hbody, hconcurrency⟩ := h
    refine ⟨hitems.written hread.items ?_, hbinder.written hread.binder ?_,
      hbody.written hread.body ?_, hconcurrency.written hread.concurrency ?_⟩
    · simp [hget, commonFields, Policy.toFields]
    · simp [hget, commonFields, Policy.toFields]
    · simp [hget, commonFields, Policy.toFields]
    · simp [hget, commonFields, Policy.toFields]
  | parallel shell steps =>
    refine hasSteps_written h hread.2 ?_ hchildren
    simp [get?_fields (s := .parallel shell steps) (by rw [toValue]), Shell.toFields, commonFields,
      Policy.toFields]
  | reduce s =>
    have hget := get?_fields (s := .reduce s) rfl
    have hread : s.ReadFrom fields := hread
    obtain ⟨hinput, hbinder, houtput, hconcurrency, hreducer⟩ := h
    refine ⟨hinput.written hread.input ?_, hbinder.written hread.binder ?_,
      houtput.written hread.output ?_, hconcurrency.written hread.concurrency ?_,
      hreducer.written hread.reducer ?_⟩
    · simp [hget, commonFields, Policy.toFields]
    · simp [hget, commonFields, Policy.toFields]
    · simp [hget, commonFields, Policy.toFields]
    · simp [hget, commonFields, Policy.toFields]
    · simp [hget, commonFields, Policy.toFields]
  | conditional shell condition yes no =>
    have hget := get?_fields (s := .conditional shell condition yes no) (by rw [toValue])
    obtain ⟨hcondition, hyes, -, -⟩ := h
    obtain ⟨-, hreadCondition, hreadYes, -⟩ := hread
    have helse : Wavefront.Fields.get? "else" (conditional shell condition yes no).fields = none := by
      simp [hget, Shell.toFields, commonFields, Policy.toFields]
    have hotherwise : Wavefront.Fields.get? "otherwise" (conditional shell condition yes no).fields
        = (toValues no).head?.map fun _ => .array (toValues no) := by
      simp [hget, Shell.toFields, commonFields, Policy.toFields]
    refine ⟨hcondition.written hreadCondition ?_, hasSteps_written hyes hreadYes ?_ ?_, ?_,
      .inl ⟨rfl, helse⟩⟩
    · simp [hget, Shell.toFields, commonFields, Policy.toFields]
    · simp [hget, Shell.toFields, commonFields, Policy.toFields]
    · exact fun t ht => hchildren t (List.mem_append_left no ht)
    · -- an empty second branch is not written
      cases no with
      | nil => exact .inl ⟨rfl, hotherwise⟩
      | cons t no =>
        refine .inr ⟨_, hotherwise, fun hneeded => Bool.noConfusion hneeded, fun v hv => ?_⟩
        rw [toValues_eq_map] at hv
        obtain ⟨u, hu, rfl⟩ := List.mem_map.1 hv
        exact hchildren u (List.mem_append_right yes hu)
  | final s =>
    refine textIfAny_of_get?_eq_map (o := s.function) ?_
    simp [get?_fields (s := .final s) rfl, commonFields, Policy.toFields]

/-- No tool step calls a tool that is nothing but blanks. -/
def NamesTools (steps : List Step) : Prop :=
  ∀ t, .tool t ∈ steps → Text.allBlank t.tool = false

/-- A step that was accepted is written as one that is accepted, but for tools that are blank. -/
theorem accepts_toValue {v : Value} {s : Step} (h : Accepts v) (hs : ofValue? v = some s)
    (htools : NamesTools s.nested) : Accepts s.toValue := by
  -- from the members up, with whatever document a member was read from
  induction s using childrenInduction generalizing v with
  | h s ih =>
    obtain ⟨fields, rfl⟩ := exists_object_of_ofValue? hs
    obtain ⟨tag, htag⟩ := accepts_object.1 h
    have hread := (ofValue?_object_eq_some.1 hs).1
    have hwrites := s.writes_fields
    have hid : HasText s.fields "id" := by
      have husable := usableText?_eq_some.1 (hread.usableText? htag.id)
      exact ⟨s.id, usableText?_eq_some.2 ⟨hwrites.id, husable.2⟩⟩
    rw [toValue_eq, accepts_object]
    refine ⟨s.tag, hid, hwrites.type.trans (congrArg some s.name_tag.symm),
      idsIfAny_of_get?_eq_map s.carries_fields.dependsOn, ?_, hasCommon_fields htag.common hread⟩
    -- the step was read as the type that it named, or as a tool step instead
    rcases typeOf?_eq_kind_or htag hs with htype | htool
    · have hchildren : ∀ t ∈ s.children, Accepts t.toValue := by
        intro t ht
        obtain ⟨v, hv, hvt⟩ := exists_left_of_mem (hread.forall₂_members htype) ht
        refine ih t ht (Accepts.of_mem_members htag hv) hvt fun u hu => htools u ?_
        rw [nested_eq]
        exact List.mem_cons_of_mem s (List.mem_flatMap.2 ⟨t, ht, hu⟩)
      have hname : tag = s.tag := by
        refine Tag.eq_of_name_eq (Option.some.inj (htag.type.symm.trans ?_))
        rw [htype, name_tag]
      exact hasForm_fields (hname ▸ htag.form) hread hchildren
    · obtain ⟨t, rfl⟩ := exists_eq_tool htool
      have hblank := htools t (by rw [nested_eq]; exact List.mem_cons_self)
      refine ⟨t.tool, usableText?_eq_some.2 ⟨?_, hblank⟩⟩
      simp [get?_fields (s := .tool t) rfl, commonFields, Policy.toFields]

/-- The steps inside a written step, on the walk, are those inside the step. -/
theorem members_fields (s : Step) : members s.fields = s.children.map toValue := by
  rw [members_of_type s.writes_fields.type]
  -- only groups and conditionals have members to write
  cases s with
  | parallel shell steps =>
    have hsteps : Wavefront.Fields.get? "steps" (parallel shell steps).fields
        = some (.array (toValues steps)) := by
      simp [get?_fields (s := .parallel shell steps) (by rw [toValue]), Shell.toFields,
        commonFields, Policy.toFields]
    simp [kind, memberKeys, itemsAt_of_get? hsteps, children, toValues_eq_map]
  | conditional shell condition yes no =>
    have hget := get?_fields (s := .conditional shell condition yes no) (by rw [toValue])
    have hyes : Wavefront.Fields.get? "then" (conditional shell condition yes no).fields
        = some (.array (toValues yes)) := by
      simp [hget, Shell.toFields, commonFields, Policy.toFields]
    have hno : itemsAt "otherwise" (conditional shell condition yes no).fields = toValues no := by
      have hotherwise : Wavefront.Fields.get? "otherwise" (conditional shell condition yes no).fields
          = (toValues no).head?.map fun _ => .array (toValues no) := by
        simp [hget, Shell.toFields, commonFields, Policy.toFields]
      cases no with
      | nil => exact itemsAt_of_get?_eq_none hotherwise
      | cons t no => exact itemsAt_of_get? hotherwise
    have helse : Wavefront.Fields.get? "else" (conditional shell condition yes no).fields = none := by
      simp [hget, Shell.toFields, commonFields, Policy.toFields]
    simp [kind, memberKeys, itemsAt_of_get? hyes, hno, itemsAt_of_get?_eq_none helse, children,
      toValues_eq_map]
  | tool s => rfl
  | loop s => rfl
  | reduce s => rfl
  | final s => rfl

/-- A step that is accepted as it is written has only such steps inside. -/
theorem accepts_of_mem_nested {s : Step} (h : Accepts s.toValue) {t : Step} (ht : t ∈ s.nested) :
    Accepts t.toValue := by
  induction s using childrenInduction with
  | h s ih =>
    rw [nested_eq] at ht
    rcases List.mem_cons.1 ht with rfl | ht
    · exact h
    · rw [toValue_eq] at h
      obtain ⟨tag, htag⟩ := accepts_object.1 h
      obtain ⟨child, hchild, ht⟩ := List.mem_flatMap.1 ht
      refine ih child hchild (Accepts.of_mem_members htag ?_) ht
      rw [members_fields]
      exact List.mem_map.2 ⟨child, hchild, rfl⟩

/-- What is accepted when written names a tool wherever one is called. -/
theorem namesTools_of_accepts {s : Step} (h : Accepts s.toValue) : NamesTools s.nested := by
  intro t ht
  obtain ⟨tag, htag⟩ := accepts_object.1 (toValue_eq (.tool t) ▸ accepts_of_mem_nested h ht)
  have htype := htag.type.symm.trans (writes_fields (.tool t)).type
  obtain rfl : tag = .tool := Tag.eq_of_name_eq (Option.some.inj htype)
  obtain ⟨tool, htool⟩ := htag.form
  obtain ⟨hfield, hblank⟩ := usableText?_eq_some.1 htool
  have hget : Wavefront.Fields.get? "tool" (fields (.tool t)) = some (.string t.tool) := by
    simp [get?_fields (s := .tool t) rfl, commonFields, Policy.toFields]
  obtain rfl : t.tool = tool := by simpa using hget.symm.trans hfield
  exact hblank

/-! ## The survey of what was read -/

/-- The ids that belong to what was read come up in the document, in the same order. -/
theorem ownIds_sublist {v : Value} {s : Step} (h : Accepts v) (hs : ofValue? v = some s) :
    (s.nested.flatMap Step.ownIds).Sublist ((visited v).flatMap Survey.ownIds) := by
  induction v using visitedInduction generalizing s with
  | object fields ih =>
    obtain ⟨tag, htag⟩ := accepts_object.1 h
    have hread := (ofValue?_object_eq_some.1 hs).1
    rw [visited_object, nested_eq, List.flatMap_cons, List.flatMap_cons, ownIds, Survey.ownIds,
      hread.usableText? htag.id]
    rcases typeOf?_eq_kind_or htag hs with htype | htool
    · rw [hread.bodyId htype, List.flatMap_assoc, List.flatMap_assoc]
      refine List.Sublist.append_left ?_ _
      exact flatMap_sublist (hread.forall₂_members htype) fun v hv t ht =>
        ih v hv (Accepts.of_mem_members htag hv) ht
    · obtain ⟨t, rfl⟩ := exists_eq_tool htool
      exact (List.nil_sublist _).cons_cons _
  | other v hv =>
    obtain ⟨fields, rfl⟩ := exists_object_of_ofValue? hs
    cases hv

end Step

namespace Survey

/-! ### What stands inside a step -/

/-- What is surveyed of an item is part of the survey of all, at the place of the item. -/
theorem exists_place_of_mem (key path : String) (scope : List String) (i : Nat)
    {items : List Value} {v : Value} (hv : v ∈ items) :
    ∃ place, (∀ d ∈ (surveyStep place scope v).survey.declared,
        d ∈ (surveySteps key path scope i items).survey.declared)
      ∧ ∀ id ∈ (surveyStep place scope v).ids, id ∈ (surveySteps key path scope i items).ids := by
  induction items generalizing i with
  | nil => exact absurd hv List.not_mem_nil
  | cons item items ih =>
    rw [surveySteps, declared_append]
    rcases List.mem_cons.1 hv with rfl | hv
    · exact ⟨_, fun d hd => List.mem_append_left _ hd, fun id hid => List.mem_append_left _ hid⟩
    · obtain ⟨place, hdeclared, hids⟩ := ih (i + 1) hv
      exact ⟨place, fun d hd => List.mem_append_right _ (hdeclared d hd),
        fun id hid => List.mem_append_right _ (hids id hid)⟩

/-- The ids of the members are those of the fields that the type looks at. -/
theorem typedMemberIds_eq (fields : Fields) (path : String) (scope : List String) :
    typedMemberIds fields path scope = (memberKeys (typeOf? fields)).flatMap fun key =>
      (surveySteps key path scope 0 (itemsAt key fields)).ids := by
  cases htype : typeOf? fields with
  | none => simp [typedMemberIds, htype, memberIds, memberKeys]
  | some type =>
    obtain ⟨tag, rfl⟩ := exists_tag_of_typeOf? htype
    cases tag <;> simp [typedMemberIds, htype, memberIds, memberKeys, Step.Tag.name, Members.ids_eq,
      found_membersAt]

/-- What is surveyed of a member is part of the survey of the step. -/
theorem exists_place_of_mem_members {fields : Fields} {v : Value} (hv : v ∈ members fields)
    (path : String) (scope : List String) :
    ∃ place, (∀ d ∈ (surveyStep place scope v).survey.declared,
        d ∈ (typedSurvey fields path scope).declared)
      ∧ ∀ id ∈ (surveyStep place scope v).ids, id ∈ typedMemberIds fields path scope := by
  obtain ⟨key, hkey, hv⟩ := List.mem_flatMap.1 hv
  obtain ⟨place, hdeclared, hids⟩ := exists_place_of_mem key path scope 0 hv
  obtain ⟨_, htyped⟩ := declared_typedSurvey fields path scope
  refine ⟨place, fun d hd => ?_, fun id hid => ?_⟩
  · rw [htyped]
    exact List.mem_append_right _ (List.mem_flatMap.2 ⟨key, hkey, hdeclared d hd⟩)
  · rw [typedMemberIds_eq]
    exact List.mem_flatMap.2 ⟨key, hkey, hids id hid⟩

/-- A step with a usable id declares it. -/
theorem ids_surveyStep_of_usable {fields : Fields} {id : String}
    (hid : usableText? fields "id" = some id) (path : String) (scope : List String) :
    (surveyStep path scope (.object fields)).ids = [id] := by
  rw [surveyStep, surveyFields, hid]
  rfl

/-- A step that is read declares the id that it is read with. -/
theorem ids_surveyStep_of_read {v : Value} {s : Step} (h : Accepts v) (hs : Step.ofValue? v = some s)
    (path : String) (scope : List String) : (surveyStep path scope v).ids = [s.id] := by
  obtain ⟨fields, rfl⟩ := Step.exists_object_of_ofValue? hs
  obtain ⟨tag, htag⟩ := accepts_object.1 h
  exact ids_surveyStep_of_usable ((Step.ofValue?_object_eq_some.1 hs).1.usableText? htag.id) path scope

/-- Where all items are texts none is left out. -/
theorem filterMap_of_texts {items : List Value} {ids : List String}
    (h : texts (.array items) = some ids) : items.filterMap Value.string? = ids := by
  rw [texts_array] at h
  induction items generalizing ids with
  | nil => exact Option.some.inj h
  | cons item items ih =>
    simp only [List.mapM_cons, Option.bind_eq_bind, Option.bind_eq_some_iff, Option.pure_def,
      Option.some.injEq] at h
    obtain ⟨id, hid, rest, hrest, rfl⟩ := h
    rw [List.filterMap_cons, show item.string? = some id from hid, ih hrest]

/-- The survey and the reader find the same dependencies. -/
theorem dependsOn_of_readFrom {fields : Fields} {s : Step} (h : s.ReadFrom fields) :
    dependsOn fields = s.dependsOn := by
  have hread := h.dependsOn
  unfold Document.withDefault at hread
  unfold dependsOn
  split at hread
  · rename_i hnone
    rw [hnone, ← Option.some.inj hread]
  · rename_i v hv
    rw [hv]
    cases v with
    | array items =>
      exact filterMap_of_texts hread
    | null => cases hread
    | bool b => cases hread
    | number n => cases hread
    | string s => cases hread
    | object fields => cases hread

/-! ### What is declared -/

/-- What is said of a step by the survey of the written plan is said of it in the document, where
more may be implied. -/
def Declares (s : Survey) (entry : String × List String × List String) : Prop :=
  ∃ d ∈ s.declared, d.id = entry.1 ∧ d.dependsOn = entry.2.1 ∧ ∀ id ∈ entry.2.2, id ∈ d.implied

/-- Where all that a survey declares is said in another one, what waits by the first waits by the
other. -/
theorem edge_of_declares {s t : Survey} (hnodup : (t.declared.map (·.id)).Nodup)
    (hids : s.ids ⊆ t.ids) (hdeclares : ∀ d ∈ s.declared, t.Declares d.entry) {a b : String}
    (h : Digraph.Edge (waits s.ids s.declared) a b) :
    Digraph.Edge (waits t.ids t.declared) a b := by
  obtain ⟨hb, d, hd, rfl, hwaits⟩ := exists_declared_of_edge h
  obtain ⟨e, he, hid, hdepends, himplied⟩ := hdeclares d hd
  have hid : e.id = d.id := hid
  rw [← hid]
  apply edge_waits hnodup he _ (hids hb)
  rw [hdepends]
  rcases List.mem_append.1 hwaits with hwaits | hwaits
  · exact List.mem_append_left _ hwaits
  · exact List.mem_append_right _ (himplied b hwaits)

/-- Whatever is read of a document, its survey has declared. -/
theorem declares_of_read {P : Place} {v : Value} (h : Accepts v) (hs : Step.ofValue? v = some P.step)
    (path : String) : ∀ Q ∈ P.within, ∀ entry ∈ Q.entries,
      (surveyStep path P.inherited v).survey.Declares entry := by
  induction P using Place.induction generalizing v path with
  | h P ih =>
    obtain ⟨fields, rfl⟩ := Step.exists_object_of_ofValue? hs
    obtain ⟨tag, htag⟩ := accepts_object.1 h
    have hread := (Step.ofValue?_object_eq_some.1 hs).1
    have husable := hread.usableText? htag.id
    have hdepends := dependsOn_of_readFrom hread
    have hscope : P.inherited ++ P.step.dependsOn = P.awaited := rfl
    obtain ⟨place, htyped⟩ := declared_typedSurvey fields path P.awaited
    have hdeclared := declared_surveyStep_object fields path P.inherited
    rw [hdepends, hscope, husable] at hdeclared
    have hinside : ∀ d ∈ (typedSurvey fields path P.awaited).declared,
        d ∈ (surveyStep path P.inherited (.object fields)).survey.declared := by
      intro d hd
      rw [hdeclared]
      exact List.mem_append_left _ hd
    -- a tool step has neither a body nor members, so nothing has to be found for these
    have hparts : P.step.bodyIds = [] ∧ P.step.children = [] ∨ typeOf? fields = some P.step.kind := by
      rcases typeOf?_eq_kind_or htag hs with htype | htool
      · exact .inr htype
      · obtain ⟨t, ht⟩ := Step.exists_eq_tool htool
        exact .inl ⟨by rw [ht]; rfl, by rw [ht]; rfl⟩
    intro Q hQ entry hentry
    rcases Place.mem_within.1 hQ with rfl | ⟨M, hM, hQM⟩
    · rcases List.mem_append.1 hentry with hentry | hentry
      · obtain ⟨b, hb, rfl⟩ := List.mem_map.1 hentry
        rcases hparts with ⟨hnone, -⟩ | htype
        · rw [hnone] at hb
          exact absurd hb List.not_mem_nil
        · refine ⟨⟨b, place, [], [Q.id]⟩, hinside _ ?_, rfl, rfl, fun id hid => hid⟩
          rw [htyped, husable, hread.bodyId htype]
          exact List.mem_append_left _ (List.mem_map.2 ⟨b, hb, rfl⟩)
      · obtain rfl := List.mem_singleton.1 hentry
        refine ⟨⟨Q.id, path, Q.step.dependsOn,
          Q.inherited ++ typedMemberIds fields path Q.awaited⟩, ?_, rfl, rfl, fun id hid => ?_⟩
        · rw [hdeclared]
          exact List.mem_append_right _ (List.mem_singleton_self _)
        · rcases List.mem_append.1 hid with hid | hid
          · exact List.mem_append_left _ hid
          · refine List.mem_append_right _ ?_
            obtain ⟨M, hM, rfl⟩ := List.mem_map.1 hid
            obtain ⟨t, ht, rfl⟩ := Place.mem_members.1 hM
            rcases hparts with ⟨-, hnone⟩ | htype
            · rw [hnone] at ht
              exact absurd ht List.not_mem_nil
            · obtain ⟨v, hv, hvt⟩ := exists_left_of_mem (hread.forall₂_members htype) ht
              obtain ⟨at', -, hids⟩ := exists_place_of_mem_members hv path Q.awaited
              refine hids t.id ?_
              rw [ids_surveyStep_of_read (Accepts.of_mem_members htag hv) hvt]
              exact List.mem_singleton_self _
    · obtain ⟨t, ht, rfl⟩ := Place.mem_members.1 hM
      rcases hparts with ⟨-, hnone⟩ | htype
      · rw [hnone] at ht
        exact absurd ht List.not_mem_nil
      · obtain ⟨v, hv, hvt⟩ := exists_left_of_mem (hread.forall₂_members htype) ht
        obtain ⟨at', hin, -⟩ := exists_place_of_mem_members hv path P.awaited
        obtain ⟨d, hd, hentries⟩ :=
          ih _ hM (Accepts.of_mem_members htag hv) hvt at' Q hQM entry hentry
        exact ⟨d, hinside d (hin d hd), hentries⟩

/-- A step that is read as what its type says names a tool if it is a tool step. -/
theorem namesTools_of_follows {v : Value} {s : Step} (h : Accepts v) (hs : Step.ofValue? v = some s)
    (hfollows : Follows s v) : Step.NamesTools s.nested := by
  -- no step was lost on the way, so every tool step named its type itself
  induction v using visitedInduction generalizing s with
  | object fields ih =>
    obtain ⟨tag, htag⟩ := accepts_object.1 h
    have hread := (Step.ofValue?_object_eq_some.1 hs).1
    obtain ⟨htype, hparts⟩ := hfollows.parts htag hread
    rw [Step.nested_eq]
    intro t ht
    rcases List.mem_cons.1 ht with rfl | ht
    · obtain rfl : tag = .tool :=
        Step.Tag.eq_of_name_eq (Option.some.inj (htag.type.symm.trans htype))
      obtain ⟨tool, htool⟩ := htag.form
      obtain ⟨hfield, hblank⟩ := usableText?_eq_some.1 htool
      have hname := ToolStep.ReadFrom.tool hread
      rw [required_of_get? hfield] at hname
      obtain rfl : tool = t.tool := Option.some.inj hname
      exact hblank
    · obtain ⟨child, hchild, ht⟩ := List.mem_flatMap.1 ht
      obtain ⟨v, hv, hchild, hpart⟩ := exists_left_of_mem hparts hchild
      exact ih v hv (Accepts.of_mem_members htag hv) hchild hpart t ht
  | other v hv =>
    obtain ⟨fields, rfl⟩ := Step.exists_object_of_ofValue? hs
    cases hv

end Survey

/-! ## Versions -/

namespace Text

/-- A text with a character that is no blank is not blank. -/
theorem not_allBlank_of_mem {s : String} {c : Char} (hc : c ∈ s.toList)
    (hblank : isBlank c = false) : allBlank s = false := by
  rw [allBlank, List.all_eq_false]
  exact ⟨c, hc, by rw [hblank]; exact Bool.false_ne_true⟩

/-- A numeral is not blank. -/
theorem not_allBlank_repr (n : Nat) : allBlank n.repr = false := by
  obtain ⟨c, rest, hdigits⟩ := List.exists_cons_of_ne_nil (Nat.toDigits_ne_nil (n := n) (b := 10))
  have hc : c ∈ Nat.toDigits 10 n := hdigits ▸ List.mem_cons_self
  refine not_allBlank_of_mem (c := c) ?_ ?_
  · rwa [Nat.toList_repr]
  · exact isBlank_of_isDigit (Nat.isDigit_of_mem_toDigits (by decide) (by decide) hc)

end Text

namespace Number

open Text

/-- A text is not blank if its front is not. -/
theorem not_allBlank_append_left {s t : String} (h : allBlank s = false) :
    allBlank (s ++ t) = false := by
  rw [allBlank] at h ⊢
  rw [String.toList_append, List.all_append, h, Bool.false_and]

/-- A text is not blank if its end is not. -/
theorem not_allBlank_append_right {s t : String} (h : allBlank t = false) :
    allBlank (s ++ t) = false := by
  rw [allBlank] at h ⊢
  rw [String.toList_append, List.all_append, h, Bool.and_false]

/-- No number is written with blanks only. -/
theorem not_allBlank_text (n : Number) : allBlank n.text = false := by
  cases n with
  | int n fits =>
    cases n with
    | ofNat n => exact not_allBlank_repr n
    | negSucc n => exact not_allBlank_append_left (s := "-") (by decide)
  | float x finite =>
    rw [text, Binary64.text]
    refine not_allBlank_append_right ?_
    split
    · decide
    dsimp only
    split
    · -- there is a point in it
      rw [Decimal.positional]
      split
      · exact not_allBlank_append_right (by decide)
      · exact not_allBlank_append_left (not_allBlank_append_right (by decide))
    · -- there is the sign of the exponent in it
      rw [Decimal.scientific]
      refine not_allBlank_append_left (not_allBlank_append_left (not_allBlank_append_right ?_))
      decide

end Number

namespace Plan

variable {fields : Document.Fields} {p : Plan}

/-! ## The survey of the written plan -/

theorem forall₂_steps (hp : ofValue? (.object fields) = some p) :
    List.Forall₂ (fun v s => Step.ofValue? v = some s) (Survey.itemsAt "steps" fields) p.steps :=
  (ofValue?_object_eq_some.1 hp).2.2.forall₂_itemsAt

theorem ids_surveyed (fields : Document.Fields) : (surveyed (.object fields)).ids
    = ((Survey.itemsAt "steps" fields).flatMap Survey.visited).flatMap Survey.ownIds :=
  Survey.ids_surveySteps fun v _ path => Survey.ids_surveyStep path [] v

/-- The ids of a plan come up in its document, in the same order. -/
theorem ids_sublist (h : Checked fields) (hp : ofValue? (.object fields) = some p) :
    p.ids.Sublist (surveyed (.object fields)).ids := by
  rw [ids_surveyed, ids_eq_flatMap, allSteps, Step.nestedList_eq_flatMap, List.flatMap_assoc,
    List.flatMap_assoc]
  exact flatMap_sublist (forall₂_steps hp) fun v hv s hs => Step.ownIds_sublist (h.accepts v hv) hs

/-- What the steps of a plan declare is declared in its document. -/
theorem surveyed_declares (h : Checked fields) (hp : ofValue? (.object fields) = some p) {P : Place}
    (hP : P ∈ p.places) : ∀ entry ∈ P.entries, (surveyed (.object fields)).Declares entry := by
  intro entry hentry
  obtain ⟨s, hs, hPs⟩ := mem_places.1 hP
  obtain ⟨v, hv, hvs⟩ := exists_left_of_mem (forall₂_steps hp) hs
  obtain ⟨place, hin, -⟩ := Survey.exists_place_of_mem "steps" "" [] 0 hv
  obtain ⟨d, hd, hdeclares⟩ := Survey.declares_of_read (P := ⟨s, [], none⟩) (h.accepts v hv) hvs place
    P hPs entry hentry
  exact ⟨d, hin d hd, hdeclares⟩

theorem declared_surveyed_perm (document : Value) :
    ((surveyed document).declared.map (·.id)).Perm (surveyed document).ids :=
  Survey.declared_surveySteps_perm fun v _ path => Survey.declared_surveyStep_perm path [] v

theorem declared_nodup (h : Checked fields) :
    ((surveyed (.object fields)).declared.map (·.id)).Nodup :=
  (declared_surveyed_perm _).nodup_iff.2 (Survey.clean_of_issues_eq_nil h.issues).nodup

/-- Waiting in the written plan is waiting in the document. -/
theorem edge_surveyed (h : Checked fields) (hp : ofValue? (.object fields) = some p)
    (hflawless : p.survey.Flawless) {a b : String}
    (hedge : Digraph.Edge (Survey.waits p.survey.ids p.survey.declared) a b) :
    Digraph.Edge (Survey.waits (surveyed (.object fields)).ids (surveyed (.object fields)).declared)
      a b := by
  refine Survey.edge_of_declares (declared_nodup h) ?_ ?_ hedge
  · rw [ids_survey_of_flawless hflawless]
    exact (ids_sublist h hp).subset
  · intro d hd
    have hentry := (declared_perm_of_flawless hflawless).mem_iff.1 (List.mem_map.2 ⟨d, hd, rfl⟩)
    obtain ⟨P, hP, hentry⟩ := List.mem_flatMap.1 hentry
    exact surveyed_declares h hp hP _ hentry

theorem flawless_survey_iff : p.survey.Flawless ↔ ∀ s ∈ p.steps, Survey.Accepts s.toValue := by
  rw [survey, Survey.flawless_surveySteps_iff, Step.toValues_eq_map]
  simp only [List.mem_map, forall_exists_index, and_imp, forall_apply_eq_imp_iff₂]

/-! ## Loading again -/

/-- Every step waits for ids of the plan only, and no tool is blank. -/
structure Reloads (p : Plan) : Prop where
  known : ∀ s ∈ p.allSteps, ∀ id ∈ s.dependsOn, id ∈ p.ids
  tools : Step.NamesTools p.allSteps

theorem mem_allSteps {s : Step} : s ∈ p.allSteps ↔ ∃ t ∈ p.steps, s ∈ t.nested := by
  rw [allSteps, Step.nestedList_eq_flatMap, List.mem_flatMap]

/-- Every step of a plan has a place. -/
theorem exists_place_of_mem_allSteps {s : Step} (hs : s ∈ p.allSteps) :
    ∃ P ∈ p.places, P.step = s := by
  rw [← map_step_places] at hs
  exact List.mem_map.1 hs

/-- Every step of a plan has been declared in the document, with the same dependencies. -/
theorem exists_declared_of_mem_allSteps (h : Checked fields)
    (hp : ofValue? (.object fields) = some p) {s : Step} (hs : s ∈ p.allSteps) :
    ∃ d ∈ (surveyed (.object fields)).declared, d.dependsOn = s.dependsOn := by
  obtain ⟨P, hP, rfl⟩ := exists_place_of_mem_allSteps hs
  obtain ⟨d, hd, -, hdepends, -⟩ := surveyed_declares h hp hP _
    (List.mem_append_right _ (List.mem_singleton_self _))
  exact ⟨d, hd, hdepends⟩

/-- A plan whose document fits can be loaded again. -/
theorem reloads_of_fits (h : Checked fields) (hp : ofValue? (.object fields) = some p)
    (hfits : fits (.object fields) = true) : p.Reloads := by
  have hclean := Survey.clean_of_issues_eq_nil h.issues
  obtain ⟨q, hq, hfollows, hids⟩ := exists_follows h hfits
  obtain rfl : q = p := Option.some.inj (hq.symm.trans hp)
  constructor
  case known =>
    intro s hs id hid
    obtain ⟨d, hd, hdepends⟩ := exists_declared_of_mem_allSteps h hp hs
    rw [hids]
    exact hclean.known d hd id (hdepends ▸ hid)
  case tools =>
    intro t ht
    obtain ⟨s, hs, ht⟩ := mem_allSteps.1 ht
    obtain ⟨v, hv, hvs⟩ := exists_left_of_mem (forall₂_steps hp) hs
    rw [fits, Bool.and_eq_true, List.all_eq_true] at hfits
    obtain ⟨u, hu, hfollows, -⟩ := Survey.exists_follows (h.accepts v hv) fun inner hinner =>
      hfits.2 inner (List.mem_flatMap.2 ⟨v, hv, hinner⟩)
    obtain rfl : u = s := Option.some.inj (hu.symm.trans hvs)
    exact Survey.namesTools_of_follows (h.accepts v hv) hvs hfollows t ht

/-- A plan that can be reloaded has a survey without issues. -/
theorem survey_issues_eq_nil (h : Checked fields) (hp : ofValue? (.object fields) = some p)
    (hreloads : p.Reloads) : p.survey.issues = [] := by
  have hclean := Survey.clean_of_issues_eq_nil h.issues
  have hflawless : p.survey.Flawless := by
    refine flawless_survey_iff.2 fun s hs => ?_
    obtain ⟨v, hv, hvs⟩ := exists_left_of_mem (forall₂_steps hp) hs
    refine Step.accepts_toValue (h.accepts v hv) hvs fun t ht => hreloads.tools t ?_
    exact mem_allSteps.2 ⟨s, hs, ht⟩
  have hids := ids_survey_of_flawless hflawless
  -- no id twice, nothing unknown, and no circle
  refine Survey.issues_eq_nil hflawless ?_ ?_ ?_
  · rw [hids]
    exact (ids_sublist h hp).nodup hclean.nodup
  · intro d hd id hid
    have hentry := (declared_perm_of_flawless hflawless).mem_iff.1 (List.mem_map.2 ⟨d, hd, rfl⟩)
    obtain ⟨P, hP, hentry⟩ := List.mem_flatMap.1 hentry
    rw [hids]
    rcases List.mem_append.1 hentry with hentry | hentry
    · -- a body is declared as waiting for nothing
      obtain ⟨b, -, hb⟩ := List.mem_map.1 hentry
      have hnone : [] = d.dependsOn := congrArg (·.2.1) hb
      rw [← hnone] at hid
      exact absurd hid List.not_mem_nil
    · have hdepends : d.dependsOn = P.step.dependsOn :=
        congrArg (·.2.1) (List.mem_singleton.1 hentry)
      exact hreloads.known P.step (step_mem_allSteps hP) id (hdepends ▸ hid)
  · intro a hcycle
    exact hclean.acyclic a (Relation.TransGen.mono (fun _ _ => edge_surveyed h hp hflawless) a a hcycle)

theorem mode_name_mem (m : Mode) : m.name ∈ modeNames := by
  cases m <;> decide

/-- The version of a plan that has been checked is not blank. -/
theorem not_allBlank_version (h : Checked fields) (hp : ofValue? (.object fields) = some p) :
    Text.allBlank p.version = false := by
  obtain ⟨hversion, -, -⟩ := ofValue?_object_eq_some.1 hp
  rcases h.version with ⟨s, hs, hblank⟩ | ⟨n, hn⟩
  · rw [required_of_get? hs] at hversion
    obtain rfl : s = p.version := Option.some.inj hversion
    exact hblank
  · rw [required_of_get? hn] at hversion
    have hversion : n.text = p.version := Option.some.inj hversion
    exact hversion ▸ n.not_allBlank_text

/-- What the check of a written plan looks at: the version, which must not be blank, and the
steps. -/
theorem check_toValue_iff_issues :
    check p.toValue = .ok ()
      ↔ Text.allBlank p.version = false ∧ p.steps ≠ [] ∧ p.survey.issues = [] := by
  -- the three fields are found again in the order of their keys
  have hversion : Fields.get? "version" (Fields.ofList [("version", Value.string p.version),
      ("execution_mode", .string p.mode.name), ("steps", .array (Step.toValues p.steps))])
      = some (.string p.version) := by simp
  have hsteps : Fields.get? "steps" (Fields.ofList [("version", Value.string p.version),
      ("execution_mode", .string p.mode.name), ("steps", .array (Step.toValues p.steps))])
      = some (.array (Step.toValues p.steps)) := by simp
  have hnil : Step.toValues p.steps = [] ↔ p.steps = [] := by
    rw [Step.toValues_eq_map, List.map_eq_nil_iff]
  rw [toValue, Value.ofFields, check_object_iff]
  constructor
  · rintro ⟨hnotBlank, -, ⟨items, hitems, hne⟩, hissues⟩
    obtain rfl : Step.toValues p.steps = items := by
      rw [hsteps] at hitems
      injection hitems with hitems
      injection hitems
    rw [surveyed, Value.object?, Option.getD_some, Survey.itemsAt_of_get? hsteps] at hissues
    refine ⟨?_, fun h => hne (hnil.2 h), hissues⟩
    rw [hversion] at hnotBlank
    simpa using hnotBlank
  · rintro ⟨hnotBlank, hne, hissues⟩
    constructor
    case version => exact .inl ⟨p.version, hversion, hnotBlank⟩
    case mode =>
      intro v hv
      obtain rfl : Value.string p.mode.name = v := by simpa using hv
      exact ⟨_, rfl, mode_name_mem p.mode⟩
    case steps => exact ⟨_, hsteps, fun h => hne (hnil.1 h)⟩
    case issues =>
      rw [surveyed, Value.object?, Option.getD_some, Survey.itemsAt_of_get? hsteps]
      exact hissues

/-- A document that passes the check has steps, and all of them are read. -/
theorem steps_ne_nil (h : Checked fields) (hp : ofValue? (.object fields) = some p) :
    p.steps ≠ [] := by
  obtain ⟨items, hitems, hne⟩ := h.steps
  have hlength := (forall₂_steps hp).length_eq
  rw [Survey.itemsAt_of_get? hitems] at hlength
  intro hnil
  rw [hnil, List.length_nil, List.length_eq_zero_iff] at hlength
  exact hne hlength

/-- The check of a written plan objects to nothing if and only if the plan can be loaded again. -/
theorem check_toValue_iff (h : Checked fields) (hp : ofValue? (.object fields) = some p) :
    check p.toValue = .ok () ↔ p.Reloads := by
  constructor
  · intro hcheck
    refine ⟨fun s hs id hid => ?_, fun t ht => ?_⟩
    · obtain ⟨P, hP, rfl⟩ := exists_place_of_mem_allSteps hs
      exact known_of_check hcheck P hP id hid
    · obtain ⟨s, hs, ht⟩ := mem_allSteps.1 ht
      have haccepts := flawless_survey_iff.1 (clean_of_check hcheck).flawless s hs
      exact Step.namesTools_of_accepts haccepts t ht
  · intro hreloads
    apply check_toValue_iff_issues.2
    exact ⟨not_allBlank_version h hp, steps_ne_nil h hp, survey_issues_eq_nil h hp hreloads⟩

/-- A plan is loaded if its document passes the check and is read. -/
theorem ofDocument_eq_ok {document : Value} :
    ofDocument document = .ok p ↔ check document = .ok () ∧ convert document = .ok p := by
  rw [ofDocument]
  cases check document with
  | ok u => exact ⟨fun h => ⟨rfl, h⟩, fun h => h.2⟩
  | error e => exact iff_of_false nofun nofun

/-- What comes of a plan that has been loaded, when it is checked and loaded again. It comes back
the same if and only if its steps wait for its own ids only and no tool is blank, and nothing but
these two is ever objected to. They hold whenever the document was read as what had been checked. -/
theorem reload_iff {document : Value} {p : Plan} (h : ofDocument document = .ok p) :
    (ofDocument p.toValue = .ok p ↔ p.Reloads) ∧ (check p.toValue = .ok () ↔ p.Reloads)
      ∧ (fits document = true → p.Reloads) := by
  obtain ⟨hcheck, hconvert⟩ := ofDocument_eq_ok.1 h
  obtain ⟨fields, rfl, hchecked⟩ := exists_object_of_check hcheck
  have hp := convert_eq_ok.1 hconvert
  have hwritten : convert p.toValue = .ok p :=
    convert_eq_ok.2 (ofValue?_toValue (expressible_of_ofValue? hp))
  refine ⟨?_, check_toValue_iff hchecked hp, reloads_of_fits hchecked hp⟩
  rw [ofDocument_eq_ok, check_toValue_iff hchecked hp]
  exact and_iff_left hwritten

/-- A document with second names of fields is loaded, written and loaded again. -/
theorem reload_iff_aliasedDocument :
    ∃ p, ofDocument aliasedDocument = .ok p ∧ ofDocument p.toValue = .ok p := by
  have hok : (ofDocument aliasedDocument).isOk = true := by cbv
  have hfits : fits aliasedDocument = true := by cbv
  obtain ⟨p, hp⟩ := exists_eq_ok_of_isOk hok
  exact ⟨p, hp, (reload_iff hp).1.2 ((reload_iff hp).2.2 hfits)⟩

/-- A group that names a tool and has a loop inside whose body has an id that is null, and a step
that waits for the loop. -/
def waitingForDropped : Value :=
  .ofFields [
    ("version", .string "1"),
    ("steps", .array [
      .ofFields [
        ("id", .string "p"),
        ("type", .string "parallel"),
        ("tool", .string "echo"),
        ("steps", .array [
          .ofFields [
            ("id", .string "l"),
            ("type", .string "loop"),
            ("over", .array [.null]),
            ("as", .string "x"),
            ("step", .ofFields [("id", .null), ("tool", .string "echo")])]])],
      .ofFields [
        ("id", .string "s"),
        ("tool", .string "echo"),
        ("depends_on", .array [.string "l"])]])]

/-- The document is loaded, but the plan does not pass the check: the loop is gone. -/
theorem waitingForDropped_not_reloaded :
    ∃ p, ofDocument waitingForDropped = .ok p ∧ check p.toValue
      = .error (.validation [⟨"steps[1].depends_on[0]", .unknownDependency "l"⟩]) := by
  have hread : (ofDocument waitingForDropped).toOption.map (fun p => check p.toValue)
      = some (.error (.validation [⟨"steps[1].depends_on[0]", .unknownDependency "l"⟩])) := by cbv
  cases hp : ofDocument waitingForDropped with
  | error e =>
    rw [hp] at hread
    cases hread
  | ok p =>
    rw [hp] at hread
    exact ⟨p, rfl, Option.some.inj hread⟩

end Plan

end Wavefront
