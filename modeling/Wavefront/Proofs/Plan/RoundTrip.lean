/-
Plans written and read again.

Writing leaves out what is not set and what is empty, and reading puts the same in its place. The
one thing that does not come back is a schema that is null, for a field that is null is read as one
that is not set. `Plan.convert_toValue_iff` says that this is all: a plan is read from its own
document if and only if none of its policies has such a schema.

That a step comes back is an induction over the steps inside it; what its own fields hold is the
statement of `Step.Carries` and of one lemma for each kind of step.
-/
import Wavefront.Proofs.Plan.Reading
import Wavefront.Proofs.Plan.Written

set_option autoImplicit false

namespace Wavefront

open Document

/-! ## Single fields -/

namespace Document

theorem word_ofWord (w : UInt64) : word (.ofWord w) = some w := by
  rw [word, Value.ofWord, Value.word?, Number.ofWord, Number.word?, if_pos (Int.natCast_nonneg _),
    Int.toNat_natCast, UInt64.ofNat_toNat]

/-- A word of half the width is written as a word and read back. -/
theorem halfWord_ofWord (n : UInt32) : halfWord (.ofWord n.toUInt64) = some n := by
  have hword : (Number.ofWord n.toUInt64).word? = some n.toUInt64 := word_ofWord n.toUInt64
  have hsmall : n.toUInt64.toNat < UInt32.size := by
    rw [UInt32.toNat_toUInt64]
    exact n.toNat_lt
  rw [halfWord, Value.ofWord, Value.halfWord?, Number.halfWord?, hword, Option.bind_some,
    if_pos hsmall, UInt32.toUInt32_toUInt64]

variable {α : Type} {read : Value → Option α} {fields : Fields} {key : String}

/-- What is written when it is set is read again. -/
theorem optional_of_get?_eq_map {write : α → Value} {o : Option α}
    (h : Wavefront.Fields.get? key fields = o.map write) (hread : ∀ a, read (write a) = some a)
    (hnull : ∀ a, write a ≠ .null) : optional read fields key = some o := by
  cases o with
  | none => exact optional_of_get?_eq_none h
  | some a =>
    rw [optional_of_get? h (hnull a), hread]
    rfl

/-- A list of texts that is left out when it is empty is read back. -/
theorem texts_of_get?_eq_map {ids : List String}
    (h : Wavefront.Fields.get? key fields = ids.head?.map fun _ => ofTexts ids) :
    withDefault [] texts fields key = some ids := by
  cases ids with
  | nil => exact withDefault_of_get?_eq_none h
  | cons id ids =>
    rw [withDefault_of_get? h]
    exact texts_ofTexts (id :: ids)

/-- An optional text is read back. -/
theorem text_of_get?_eq_map {o : Option String}
    (h : Wavefront.Fields.get? key fields = o.map Value.string) :
    optional text fields key = some o :=
  optional_of_get?_eq_map h (fun _ => rfl) fun _ hnull => Value.noConfusion hnull

/-- An optional word is read back. -/
theorem word_of_get?_eq_map {o : Option UInt64}
    (h : Wavefront.Fields.get? key fields = o.map Value.ofWord) :
    optional word fields key = some o :=
  optional_of_get?_eq_map h word_ofWord fun _ hnull => Value.noConfusion hnull

/-- A text is read back. -/
theorem text_of_get? {s : String} (h : Wavefront.Fields.get? key fields = some (.string s)) :
    required text fields key = some s := by
  rw [required_of_get? h]
  rfl

end Document

/-! ## Policies -/

/-- The policy can be written: its schema, if it has one, is not null. -/
def Policy.Expressible (p : Policy) : Prop := p.inputSchema ≠ some .null

/-- What is read has no schema that is null: null is read as not set. -/
theorem Policy.ReadFrom.expressible {fields : Document.Fields} {p : Policy}
    (h : p.ReadFrom fields) : p.Expressible := by
  intro hnull
  have hschema := h.inputSchema
  rw [hnull] at hschema
  unfold Document.optional at hschema
  split at hschema
  · cases hschema
  · cases hschema
  · rename_i v hne heq
    obtain rfl : v = .null := by simpa using hschema
    exact hne rfl

namespace Step

/-- The policies that a step is written with: its own and that of its body. -/
def policies (s : Step) : List Policy := s.policy :: (s.body?.map (·.policy)).toList

/-- What a step waits for and its policy stand in the fields. -/
structure Carries (fields : Document.Fields) (dependsOn : List String) (policy : Policy) : Prop where
  dependsOn : Fields.get? "depends_on" fields = dependsOn.head?.map fun _ => ofTexts dependsOn
  timeoutMs : Fields.get? "timeout_ms" fields = policy.timeoutMs.map .ofWord
  maxRetries : Fields.get? "max_retries" fields
    = policy.maxRetries.map fun n => .ofWord n.toUInt64
  inputSchema : Fields.get? "input_schema" fields = policy.inputSchema

/-- The written fields of a step carry its dependencies and its policy. -/
theorem carries_fields (s : Step) : Carries s.fields s.dependsOn s.policy := by
  cases s with
  | tool s =>
    have h := get?_fields (s := .tool s) rfl
    constructor <;> simp [h, commonFields, Policy.toFields, dependsOn, policy]
  | loop s =>
    have h := get?_fields (s := .loop s) rfl
    constructor <;> simp [h, commonFields, Policy.toFields, dependsOn, policy]
  | parallel shell steps =>
    have h := get?_fields (s := .parallel shell steps) (by rw [toValue])
    constructor <;> simp [h, Shell.toFields, commonFields, Policy.toFields, dependsOn, policy]
  | reduce s =>
    have h := get?_fields (s := .reduce s) rfl
    constructor <;> simp [h, commonFields, Policy.toFields, dependsOn, policy]
  | conditional shell condition yes no =>
    have h := get?_fields (s := .conditional shell condition yes no) (by rw [toValue])
    constructor <;> simp [h, Shell.toFields, commonFields, Policy.toFields, dependsOn, policy]
  | final s =>
    have h := get?_fields (s := .final s) rfl
    constructor <;> simp [h, commonFields, Policy.toFields, dependsOn, policy]

/-- What is carried is read back. -/
theorem Carries.readFrom {fields : Document.Fields} {dependsOn : List String} {policy : Policy}
    (h : Carries fields dependsOn policy) (hpolicy : policy.Expressible) :
    withDefault [] texts fields "depends_on" = some dependsOn ∧ policy.ReadFrom fields := by
  refine ⟨texts_of_get?_eq_map h.dependsOn, word_of_get?_eq_map h.timeoutMs, ?_, ?_⟩
  · exact optional_of_get?_eq_map h.maxRetries halfWord_ofWord fun _ hnull =>
      Value.noConfusion hnull
  · cases hschema : policy.inputSchema with
    | none => exact optional_of_get?_eq_none (h.inputSchema.trans hschema)
    | some v =>
      have hv : v ≠ .null := fun hnull => hpolicy (hschema.trans (congrArg some hnull))
      rw [optional_of_get? (h.inputSchema.trans hschema) hv]
      rfl

end Step

/-! ## Steps without steps inside -/

/-- A tool step is read back from its fields. -/
theorem ToolStep.readFrom_fields (s : ToolStep) (h : s.policy.Expressible) :
    s.ReadFrom (Step.fields (.tool s)) := by
  have hget := Step.get?_fields (s := .tool s) rfl
  have hcommon := (Step.carries_fields (.tool s)).readFrom h
  refine ⟨?_, text_of_get? ?_, ?_, text_of_get?_eq_map ?_, hcommon.1, hcommon.2⟩
  · refine withDefault_of_get? (v := .string s.id) ?_
    simp [hget, commonFields, Policy.toFields]
  · simp [hget, commonFields, Policy.toFields]
  · refine withDefault_of_get? ?_
    simp [hget, commonFields, Policy.toFields]
  · simp [hget, commonFields, Policy.toFields]

theorem ToolStep.ofValue?_toValue {s : ToolStep} (h : s.policy.Expressible) :
    ToolStep.ofValue? s.toValue = some s :=
  ToolStep.ofValue?_eq_some.2 ⟨_, Step.toValue_eq (.tool s), s.readFrom_fields h⟩

/-- A reducer is read back. -/
theorem Reducer.ofValue?_toValue {r : Reducer}
    (h : ∀ step, r = .inline step → step.policy.Expressible) :
    Reducer.ofValue? r.toValue = some r := by
  rw [Reducer.ofValue?_eq_some]
  cases r with
  | named tool => exact .inl ⟨tool, rfl, rfl⟩
  | inline step => exact .inr ⟨step, ToolStep.ofValue?_toValue (h step rfl), rfl⟩

/-- A loop is read back from its fields, with its body. -/
theorem LoopStep.readFrom_fields (s : LoopStep) (h : s.policy.Expressible)
    (hbody : s.body.policy.Expressible) : s.ReadFrom (Step.fields (.loop s)) := by
  have hget := Step.get?_fields (s := .loop s) rfl
  have hcommon := (Step.carries_fields (.loop s)).readFrom h
  refine ⟨text_of_get? ?_, ?_, text_of_get? ?_, ?_, text_of_get?_eq_map ?_, word_of_get?_eq_map ?_,
    hcommon.1, hcommon.2⟩
  · simp [hget, commonFields, Policy.toFields]
  · refine required_of_get? ?_
    simp [hget, commonFields, Policy.toFields]
  · simp [hget, commonFields, Policy.toFields]
  · refine (required_of_get? (v := s.body.toValue) ?_).trans (ToolStep.ofValue?_toValue hbody)
    simp [hget, commonFields, Policy.toFields]
  · simp [hget, commonFields, Policy.toFields]
  · simp [hget, commonFields, Policy.toFields]

/-- A reduce step is read back from its fields, with an inline reducer. -/
theorem ReduceStep.readFrom_fields (s : ReduceStep) (h : s.policy.Expressible)
    (hbody : ∀ step, s.reducer = .inline step → step.policy.Expressible) :
    s.ReadFrom (Step.fields (.reduce s)) := by
  have hget := Step.get?_fields (s := .reduce s) rfl
  have hcommon := (Step.carries_fields (.reduce s)).readFrom h
  refine ⟨text_of_get? ?_, ?_, text_of_get? ?_, ?_, text_of_get? ?_, word_of_get?_eq_map ?_,
    hcommon.1, hcommon.2⟩
  · simp [hget, commonFields, Policy.toFields]
  · refine required_of_get? ?_
    simp [hget, commonFields, Policy.toFields]
  · simp [hget, commonFields, Policy.toFields]
  · refine (required_of_get? (v := s.reducer.toValue) ?_).trans (Reducer.ofValue?_toValue hbody)
    simp [hget, commonFields, Policy.toFields]
  · simp [hget, commonFields, Policy.toFields]
  · simp [hget, commonFields, Policy.toFields]

/-- A final step is read back from its fields. -/
theorem FinalStep.readFrom_fields (s : FinalStep) (h : s.policy.Expressible) :
    s.ReadFrom (Step.fields (.final s)) := by
  have hget := Step.get?_fields (s := .final s) rfl
  have hcommon := (Step.carries_fields (.final s)).readFrom h
  refine ⟨text_of_get? ?_, text_of_get?_eq_map ?_, ?_, text_of_get?_eq_map ?_, hcommon.1, hcommon.2⟩
  · simp [hget, commonFields, Policy.toFields]
  · simp [hget, commonFields, Policy.toFields]
  · refine withDefault_of_get? ?_
    simp [hget, commonFields, Policy.toFields]
  · simp [hget, commonFields, Policy.toFields]

/-! ## Groups -/

namespace Step

/-- Steps are written one by one. -/
theorem toValues_eq_map (steps : List Step) : toValues steps = steps.map toValue := by
  induction steps with
  | nil => rfl
  | cons s steps ih => rw [toValues, ih, List.map_cons]

/-- Steps that come back one by one come back together. -/
theorem forall₂_toValues {steps : List Step} (h : ∀ s ∈ steps, ofValue? s.toValue = some s) :
    List.Forall₂ (fun v s => ofValue? v = some s) (toValues steps) steps := by
  rw [toValues_eq_map, List.forall₂_map_left_iff]
  exact List.forall₂_same.2 h

/-- A group is read back if its members are. -/
theorem readFrom_parallel {shell : Shell} {steps : List Step} (h : shell.policy.Expressible)
    (hsteps : ∀ s ∈ steps, ofValue? s.toValue = some s) :
    (parallel shell steps).ReadFrom (parallel shell steps).fields := by
  have hget := get?_fields (s := .parallel shell steps) (by rw [toValue])
  have hcommon := (carries_fields (.parallel shell steps)).readFrom h
  refine ⟨⟨text_of_get? ?_, text_of_get?_eq_map ?_, hcommon.1, hcommon.2⟩,
    toValues steps, ?_, forall₂_toValues hsteps⟩
  · simp [hget, Shell.toFields, commonFields, Policy.toFields]
  · simp [hget, Shell.toFields, commonFields, Policy.toFields]
  · simp [hget, Shell.toFields, commonFields, Policy.toFields]

/-- A conditional is read back if the members of both branches are; an empty second one is left out.
-/
theorem readFrom_conditional {shell : Shell} {condition : String} {yes no : List Step}
    (h : shell.policy.Expressible) (hyes : ∀ s ∈ yes, ofValue? s.toValue = some s)
    (hno : ∀ s ∈ no, ofValue? s.toValue = some s) :
    (conditional shell condition yes no).ReadFrom (conditional shell condition yes no).fields := by
  have hget := get?_fields (s := .conditional shell condition yes no) (by rw [toValue])
  have hcommon := (carries_fields (.conditional shell condition yes no)).readFrom h
  have helse : Fields.get? "else" (conditional shell condition yes no).fields = none := by
    simp [hget, Shell.toFields, commonFields, Policy.toFields]
  have hotherwise : Fields.get? "otherwise" (conditional shell condition yes no).fields
      = (toValues no).head?.map fun _ => .array (toValues no) := by
    simp [hget, Shell.toFields, commonFields, Policy.toFields]
  refine ⟨⟨text_of_get? ?_, text_of_get?_eq_map ?_, hcommon.1, hcommon.2⟩, text_of_get? ?_,
    ⟨toValues yes, ?_, forall₂_toValues hyes⟩, ?_⟩
  · simp [hget, Shell.toFields, commonFields, Policy.toFields]
  · simp [hget, Shell.toFields, commonFields, Policy.toFields]
  · simp [hget, Shell.toFields, commonFields, Policy.toFields]
  · simp [hget, Shell.toFields, commonFields, Policy.toFields]
  · -- an empty second branch is not written
    cases no with
    | nil => exact .absent hotherwise helse
    | cons s no => exact .otherwise ⟨_, hotherwise, forall₂_toValues hno⟩ helse

/-! ## Steps and plans -/

/-- The type of a written step is named, unless it is a tool step. -/
theorem tagged_fields {s : Step} (h : s.tag ≠ .tool) : Tagged s.fields s.tag := by
  have htag : Fields.get? "type" s.fields = some (.string s.tag.name) := by
    cases s with
    | tool s => exact absurd rfl h
    | loop s => simp [get?_fields (s := .loop s) rfl, commonFields, Policy.toFields, tag]
    | parallel shell steps =>
      simp [get?_fields (s := .parallel shell steps) (by rw [toValue]), Shell.toFields,
        commonFields, Policy.toFields, tag]
    | reduce s => simp [get?_fields (s := .reduce s) rfl, commonFields, Policy.toFields, tag]
    | conditional shell condition yes no =>
      simp [get?_fields (s := .conditional shell condition yes no) (by rw [toValue]),
        Shell.toFields, commonFields, Policy.toFields, tag]
    | final s => simp [get?_fields (s := .final s) rfl, commonFields, Policy.toFields, tag]
  rw [Tagged, required_of_get? htag]
  cases s.tag <;> rfl

/-- A tool step is written without a type. -/
theorem untagged_fields (s : ToolStep) (tag : Tag) : ¬ Tagged (fields (.tool s)) tag := by
  have htype : Fields.get? "type" (fields (.tool s)) = none := by
    simp [get?_fields (s := .tool s) rfl, commonFields, Policy.toFields]
  rw [Tagged, required, htype, Option.bind_none]
  exact (Option.some_ne_none tag).symm

/-- A step is read back from its fields if its members are. -/
theorem readFrom_fields {s : Step} (hpolicies : ∀ policy ∈ s.policies, policy.Expressible)
    (hchildren : ∀ t ∈ s.children, ofValue? t.toValue = some t) : s.ReadFrom s.fields := by
  have hpolicy : s.policy.Expressible := hpolicies _ List.mem_cons_self
  have hbody : ∀ body, s.body? = some body → body.policy.Expressible := by
    intro body hbody
    refine hpolicies _ (List.mem_cons_of_mem _ ?_)
    rw [hbody]
    exact List.mem_singleton_self _
  cases s with
  | tool s => exact s.readFrom_fields hpolicy
  | loop s => exact s.readFrom_fields hpolicy (hbody _ rfl)
  | parallel shell steps => exact readFrom_parallel hpolicy hchildren
  | reduce s =>
    refine s.readFrom_fields hpolicy fun step hstep => hbody step ?_
    rw [body?, hstep]
  | conditional shell condition yes no =>
    exact readFrom_conditional hpolicy (fun t ht => hchildren t (List.mem_append_left _ ht))
      fun t ht => hchildren t (List.mem_append_right _ ht)
  | final s => exact s.readFrom_fields hpolicy

/-- A step is read back, with all steps inside it, if their policies can be expressed. -/
theorem ofValue?_toValue {s : Step}
    (h : ∀ t ∈ s.nested, ∀ policy ∈ t.policies, policy.Expressible) :
    ofValue? s.toValue = some s := by
  induction s using childrenInduction with
  | h s ih =>
    rw [nested_eq] at h
    obtain ⟨hpolicies, hinside⟩ := List.forall_mem_cons.1 h
    have hchildren : ∀ t ∈ s.children, ofValue? t.toValue = some t := fun t ht =>
      ih t ht fun u hu => hinside u (List.mem_flatMap.2 ⟨t, ht, hu⟩)
    rw [toValue_eq, ofValue?_object_eq_some]
    refine ⟨readFrom_fields hpolicies hchildren, ?_⟩
    by_cases htool : s.tag = .tool
    · obtain ⟨t, rfl⟩ := exists_eq_tool htool
      refine .inr ⟨Option.eq_none_iff_forall_ne_some.2 fun u hu => ?_, rfl⟩
      exact untagged_fields t _ (typedOf?_eq_some.1 hu).1
    · exact .inl (tagged_fields htool)

/-- No schema that is read is null. -/
theorem expressible_of_ofValue? {v : Value} {s : Step} (h : ofValue? v = some s) :
    ∀ t ∈ s.nested, ∀ policy ∈ t.policies, policy.Expressible := by
  induction s using childrenInduction generalizing v with
  | h s ih =>
    obtain ⟨fields, rfl⟩ := exists_object_of_ofValue? h
    have hs := (ofValue?_object_eq_some.1 h).1
    rw [nested_eq]
    refine List.forall_mem_cons.2 ⟨?_, ?_⟩
    · refine List.forall_mem_cons.2 ⟨hs.policy.expressible, ?_⟩
      intro policy hpolicy
      obtain ⟨body, hbody, rfl⟩ := Option.map_eq_some_iff.1 (Option.mem_toList.1 hpolicy)
      obtain ⟨inner, hinner⟩ := hs.body hbody
      exact hinner.policy.expressible
    · intro t ht
      obtain ⟨child, hchild, ht⟩ := List.mem_flatMap.1 ht
      obtain ⟨w, hw⟩ := exists_read_of_mem_children hs hchild
      exact ih child hchild hw t ht

end Step

theorem Mode.ofValue?_name (m : Mode) : Mode.ofValue? (.string m.name) = some m := by
  cases m <;> rfl

namespace Plan

/-- The policies that a plan is written with, those of bodies included. -/
def policies (p : Plan) : List Policy := p.allSteps.flatMap Step.policies

variable {p : Plan}

/-- A plan that was read has policies that can be expressed. -/
theorem expressible_of_ofValue? {fields : Document.Fields} (h : ofValue? (.object fields) = some p) :
    ∀ policy ∈ p.policies, policy.Expressible := by
  obtain ⟨-, -, hsteps⟩ := ofValue?_object_eq_some.1 h
  rw [policies, allSteps, Step.nestedList_eq_flatMap]
  intro policy hpolicy
  obtain ⟨t, ht, hpolicy⟩ := List.mem_flatMap.1 hpolicy
  obtain ⟨s, hs, ht⟩ := List.mem_flatMap.1 ht
  obtain ⟨_, _, v, _, hv⟩ := hsteps.exists_item hs
  exact Step.expressible_of_ofValue? hv t ht policy hpolicy

/-- A plan whose policies can be expressed is read back. -/
theorem ofValue?_toValue (h : ∀ policy ∈ p.policies, policy.Expressible) :
    ofValue? p.toValue = some p := by
  have hsteps : ∀ s ∈ p.steps, Step.ofValue? s.toValue = some s := by
    intro s hs
    refine Step.ofValue?_toValue fun t ht policy hpolicy => h policy ?_
    rw [policies, allSteps, Step.nestedList_eq_flatMap]
    exact List.mem_flatMap.2 ⟨t, List.mem_flatMap.2 ⟨s, hs, ht⟩, hpolicy⟩
  rw [toValue, Value.ofFields, ofValue?_object_eq_some]
  refine ⟨?_, ?_, Step.toValues p.steps, ?_, Step.forall₂_toValues hsteps⟩
  · refine (required_of_get? (v := .string p.version) ?_).trans rfl
    simp
  · simp [aliased, Mode.ofValue?_name]
  · simp

/-- A plan is read from its own document, without a check, if and only if no schema in it is
null. -/
theorem convert_toValue_iff (p : Plan) :
    convert p.toValue = .ok p ↔ ∀ policy ∈ p.policies, policy.inputSchema ≠ some .null := by
  rw [convert_eq_ok]
  constructor
  · intro h
    rw [toValue, Value.ofFields] at h
    exact expressible_of_ofValue? h
  · exact ofValue?_toValue

end Plan

end Wavefront
