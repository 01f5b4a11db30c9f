/-
What the reader of plans makes of a document, field by field.

The readers look for one field after the other. For each kind of step a structure says what has been
found when all of them have succeeded, so that a step that was read can be taken apart by the names
of its fields, and a reading can be put together from them. `Step.ReadFrom` has the kinds together.
It does not say of a tool step whether its document named that type: a step of another type that
does not read leaves a tool step behind as well.
-/
import Mathlib.Data.List.Forall2
import Mathlib.Data.List.Basic
import Wavefront.Plan.Reader
import Wavefront.Proofs.Plan.Place
import Wavefront.Proofs.Plan.Sound
import Wavefront.Proofs.Value.Fields

set_option autoImplicit false

namespace Wavefront

/-! ## Lists that correspond -/

section

variable {α β : Type} {r : α → β → Prop} {as : List α} {bs : List β}

/-- In two lists side by side every left item has its right one. -/
theorem exists_right_of_mem (h : List.Forall₂ r as bs) {a : α} (ha : a ∈ as) : ∃ b ∈ bs, r a b := by
  induction h with
  | nil => exact absurd ha List.not_mem_nil
  | @cons c d as bs hcd _ ih =>
    rcases List.mem_cons.1 ha with rfl | ha
    · exact ⟨d, List.mem_cons_self, hcd⟩
    · obtain ⟨b, hb, hab⟩ := ih ha
      exact ⟨b, List.mem_cons_of_mem d hb, hab⟩

theorem exists_left_of_mem (h : List.Forall₂ r as bs) {b : β} (hb : b ∈ bs) : ∃ a ∈ as, r a b :=
  exists_right_of_mem h.flip hb

end

/-! ## Single fields -/

namespace Document

section

variable {α : Type} {read : Value → Option α} {fields : Fields} {key : String}

/-- A needed field is read if it is there and what it holds is read. -/
theorem required_eq_some {a : α} :
    required read fields key = some a
      ↔ ∃ v, Wavefront.Fields.get? key fields = some v ∧ read v = some a :=
  Option.bind_eq_some_iff

theorem required_of_get? {v : Value} (h : Wavefront.Fields.get? key fields = some v) :
    required read fields key = read v := by
  rw [required, h, Option.bind_some]

theorem optional_of_get?_eq_none (h : Wavefront.Fields.get? key fields = none) :
    optional read fields key = some none := by
  rw [optional, h]

/-- An option that is there and not null is read by what it holds. -/
theorem optional_of_get? {v : Value} (h : Wavefront.Fields.get? key fields = some v)
    (hv : v ≠ .null) : optional read fields key = (read v).map some := by
  rw [optional, h]
  split
  · contradiction
  · rename_i heq
    exact absurd (Option.some.inj heq) hv
  · rename_i heq
    rw [Option.some.inj heq]

/-- An option that is set stands there. -/
theorem exists_of_optional_eq_some {a : α} (h : optional read fields key = some (some a)) :
    ∃ v, Wavefront.Fields.get? key fields = some v ∧ read v = some a := by
  unfold Document.optional at h
  split at h
  · cases h
  · cases h
  · rename_i v _ hv
    obtain ⟨b, hb, hba⟩ := Option.map_eq_some_iff.1 h
    exact ⟨v, hv, hb.trans (congrArg some (Option.some.inj hba))⟩

theorem withDefault_of_get?_eq_none {a : α} (h : Wavefront.Fields.get? key fields = none) :
    withDefault a read fields key = some a := by
  rw [withDefault, h]

theorem withDefault_of_get? {a : α} {v : Value} (h : Wavefront.Fields.get? key fields = some v) :
    withDefault a read fields key = read v := by
  rw [withDefault, h]

end

theorem texts_array (items : List Value) : texts (.array items) = items.mapM text := rfl

/-- A list of texts that is written is read back. -/
theorem texts_ofTexts (ids : List String) : texts (ofTexts ids) = some ids := by
  rw [ofTexts, texts_array]
  induction ids with
  | nil => rfl
  | cons id ids ih =>
    rw [List.map_cons, List.mapM_cons, ih]
    rfl

end Document

open Document

/-! ## Steps without steps inside -/

/-- The fields from which a policy is read. -/
structure Policy.ReadFrom (fields : Document.Fields) (p : Policy) : Prop where
  timeoutMs : optional word fields "timeout_ms" = some p.timeoutMs
  maxRetries : optional halfWord fields "max_retries" = some p.maxRetries
  inputSchema : optional some fields "input_schema" = some p.inputSchema

/-- A policy is read exactly if all its fields are. -/
theorem Policy.ofFields?_eq_some {fields : Document.Fields} {p : Policy} :
    Policy.ofFields? fields = some p ↔ p.ReadFrom fields := by
  constructor
  · intro h
    simp only [Policy.ofFields?, Option.bind_eq_bind, Option.bind_eq_some_iff, Option.pure_def,
      Option.some.injEq] at h
    obtain ⟨_, h₁, _, h₂, _, h₃, rfl⟩ := h
    exact ⟨h₁, h₂, h₃⟩
  · rintro ⟨h₁, h₂, h₃⟩
    rw [Policy.ofFields?, h₁, h₂, h₃]
    rfl

/-- The fields from which a tool step is read. -/
structure ToolStep.ReadFrom (fields : Document.Fields) (s : ToolStep) : Prop where
  id : withDefault "" text fields "id" = some s.id
  tool : required text fields "tool" = some s.tool
  input : withDefault .null some fields "input" = some s.input
  output : optional text fields "output" = some s.output
  dependsOn : withDefault [] texts fields "depends_on" = some s.dependsOn
  policy : s.policy.ReadFrom fields

/-- A tool step is read exactly if all its fields are. -/
theorem ToolStep.ofFields?_eq_some {fields : Document.Fields} {s : ToolStep} :
    ToolStep.ofFields? fields = some s ↔ s.ReadFrom fields := by
  constructor
  · intro h
    simp only [ToolStep.ofFields?, Option.bind_eq_bind, Option.bind_eq_some_iff, Option.pure_def,
      Option.some.injEq] at h
    obtain ⟨_, h₁, _, h₂, _, h₃, _, h₄, _, h₅, _, h₆, rfl⟩ := h
    exact ⟨h₁, h₂, h₃, h₄, h₅, Policy.ofFields?_eq_some.1 h₆⟩
  · rintro ⟨h₁, h₂, h₃, h₄, h₅, h₆⟩
    rw [ToolStep.ofFields?, h₁, h₂, h₃, h₄, h₅, Policy.ofFields?_eq_some.2 h₆]
    rfl

/-- A tool step is read from an object. -/
theorem ToolStep.ofValue?_eq_some {v : Value} {s : ToolStep} :
    ToolStep.ofValue? v = some s ↔ ∃ fields, v = .object fields ∧ s.ReadFrom fields := by
  cases v with
  | object fields =>
    have hfields : ToolStep.ofValue? (.object fields) = ToolStep.ofFields? fields := rfl
    rw [hfields, ToolStep.ofFields?_eq_some]
    constructor
    · exact fun h => ⟨fields, rfl, h⟩
    · rintro ⟨_, heq, h⟩
      rwa [Value.object.inj heq]
  | null => simp [ToolStep.ofValue?, Value.object?]
  | bool b => simp [ToolStep.ofValue?, Value.object?]
  | number n => simp [ToolStep.ofValue?, Value.object?]
  | string s => simp [ToolStep.ofValue?, Value.object?]
  | array items => simp [ToolStep.ofValue?, Value.object?]

/-- The fields from which a loop is read. -/
structure LoopStep.ReadFrom (fields : Document.Fields) (s : LoopStep) : Prop where
  id : required text fields "id" = some s.id
  items : required some fields "over" = some s.items
  binder : required text fields "as" = some s.binder
  body : required ToolStep.ofValue? fields "step" = some s.body
  output : optional text fields "output" = some s.output
  concurrency : optional word fields "concurrency" = some s.concurrency
  dependsOn : withDefault [] texts fields "depends_on" = some s.dependsOn
  policy : s.policy.ReadFrom fields

/-- A loop is read exactly if all its fields are. -/
theorem LoopStep.ofFields?_eq_some {fields : Document.Fields} {s : LoopStep} :
    LoopStep.ofFields? fields = some s ↔ s.ReadFrom fields := by
  constructor
  · intro h
    simp only [LoopStep.ofFields?, Option.bind_eq_bind, Option.bind_eq_some_iff, Option.pure_def,
      Option.some.injEq] at h
    obtain ⟨_, h₁, _, h₂, _, h₃, _, h₄, _, h₅, _, h₆, _, h₇, _, h₈, rfl⟩ := h
    exact ⟨h₁, h₂, h₃, h₄, h₅, h₆, h₇, Policy.ofFields?_eq_some.1 h₈⟩
  · rintro ⟨h₁, h₂, h₃, h₄, h₅, h₆, h₇, h₈⟩
    rw [LoopStep.ofFields?, h₁, h₂, h₃, h₄, h₅, h₆, h₇, Policy.ofFields?_eq_some.2 h₈]
    rfl

/-- A reducer is read from a name or from a tool step. -/
theorem Reducer.ofValue?_eq_some {v : Value} {r : Reducer} :
    Reducer.ofValue? v = some r ↔ (∃ tool, v = .string tool ∧ r = .named tool)
      ∨ ∃ step, ToolStep.ofValue? v = some step ∧ r = .inline step := by
  have hinline : (ToolStep.ofValue? v).map Reducer.inline = some r
      ↔ ∃ step, ToolStep.ofValue? v = some step ∧ r = .inline step := by
    rw [Option.map_eq_some_iff]
    simp only [eq_comm]
  cases v with
  | string tool => simp [Reducer.ofValue?, ToolStep.ofValue?, Value.object?, eq_comm]
  | object fields => simpa [Reducer.ofValue?] using hinline
  | null => simpa [Reducer.ofValue?] using hinline
  | bool b => simpa [Reducer.ofValue?] using hinline
  | number n => simpa [Reducer.ofValue?] using hinline
  | array items => simpa [Reducer.ofValue?] using hinline

/-- The fields from which a reduce step is read. -/
structure ReduceStep.ReadFrom (fields : Document.Fields) (s : ReduceStep) : Prop where
  id : required text fields "id" = some s.id
  input : required some fields "input" = some s.input
  binder : required text fields "as" = some s.binder
  reducer : required Reducer.ofValue? fields "reducer" = some s.reducer
  output : required text fields "output" = some s.output
  concurrency : optional word fields "concurrency" = some s.concurrency
  dependsOn : withDefault [] texts fields "depends_on" = some s.dependsOn
  policy : s.policy.ReadFrom fields

/-- A reduce step is read exactly if all its fields are. -/
theorem ReduceStep.ofFields?_eq_some {fields : Document.Fields} {s : ReduceStep} :
    ReduceStep.ofFields? fields = some s ↔ s.ReadFrom fields := by
  constructor
  · intro h
    simp only [ReduceStep.ofFields?, Option.bind_eq_bind, Option.bind_eq_some_iff,
      Option.pure_def, Option.some.injEq] at h
    obtain ⟨_, h₁, _, h₂, _, h₃, _, h₄, _, h₅, _, h₆, _, h₇, _, h₈, rfl⟩ := h
    exact ⟨h₁, h₂, h₃, h₄, h₅, h₆, h₇, Policy.ofFields?_eq_some.1 h₈⟩
  · rintro ⟨h₁, h₂, h₃, h₄, h₅, h₆, h₇, h₈⟩
    rw [ReduceStep.ofFields?, h₁, h₂, h₃, h₄, h₅, h₆, h₇, Policy.ofFields?_eq_some.2 h₈]
    rfl

/-- The fields from which a final step is read. -/
structure FinalStep.ReadFrom (fields : Document.Fields) (s : FinalStep) : Prop where
  id : required text fields "id" = some s.id
  function : optional text fields "function" = some s.function
  input : withDefault .null some fields "input" = some s.input
  output : optional text fields "output" = some s.output
  dependsOn : withDefault [] texts fields "depends_on" = some s.dependsOn
  policy : s.policy.ReadFrom fields

/-- A final step is read exactly if all its fields are. -/
theorem FinalStep.ofFields?_eq_some {fields : Document.Fields} {s : FinalStep} :
    FinalStep.ofFields? fields = some s ↔ s.ReadFrom fields := by
  constructor
  · intro h
    simp only [FinalStep.ofFields?, Option.bind_eq_bind, Option.bind_eq_some_iff, Option.pure_def,
      Option.some.injEq] at h
    obtain ⟨_, h₁, _, h₂, _, h₃, _, h₄, _, h₅, _, h₆, rfl⟩ := h
    exact ⟨h₁, h₂, h₃, h₄, h₅, Policy.ofFields?_eq_some.1 h₆⟩
  · rintro ⟨h₁, h₂, h₃, h₄, h₅, h₆⟩
    rw [FinalStep.ofFields?, h₁, h₂, h₃, h₄, h₅, Policy.ofFields?_eq_some.2 h₆]
    rfl

/-- The fields from which the shell of a group is read. -/
structure Shell.ReadFrom (fields : Document.Fields) (s : Shell) : Prop where
  id : required text fields "id" = some s.id
  output : optional text fields "output" = some s.output
  dependsOn : withDefault [] texts fields "depends_on" = some s.dependsOn
  policy : s.policy.ReadFrom fields

/-- What groups have in common is read exactly if all its fields are. -/
theorem Shell.ofFields?_eq_some {fields : Document.Fields} {s : Shell} :
    Shell.ofFields? fields = some s ↔ s.ReadFrom fields := by
  constructor
  · intro h
    simp only [Shell.ofFields?, Option.bind_eq_bind, Option.bind_eq_some_iff, Option.pure_def,
      Option.some.injEq] at h
    obtain ⟨_, h₁, _, h₂, _, h₃, _, h₄, rfl⟩ := h
    exact ⟨h₁, h₂, h₃, Policy.ofFields?_eq_some.1 h₄⟩
  · rintro ⟨h₁, h₂, h₃, h₄⟩
    rw [Shell.ofFields?, h₁, h₂, h₃, Policy.ofFields?_eq_some.2 h₄]
    rfl

/-! ## Steps -/

namespace Step

/-- The steps that are found at a key go by what the look-up finds there. -/
theorem stepsAt_eq (key : String) (fields : Document.Fields) :
    stepsAt key fields = (Fields.get? key fields).map ofItems? := by
  induction fields with
  | nil => rw [stepsAt]; rfl
  | cons pair rest ih =>
    obtain ⟨k, v⟩ := pair
    rw [stepsAt, Fields.get?_cons]
    by_cases hlt : k < key
    · rw [if_pos hlt, if_pos hlt, ih]
    rw [if_neg hlt, if_neg hlt]
    by_cases heq : k = key
    · rw [if_pos heq, if_pos heq, Option.map_some]
    · rw [if_neg heq, if_neg heq, Option.map_none]

/-- Steps are read one from each item. -/
theorem ofList?_eq_some {items : List Value} {steps : List Step} :
    ofList? items = some steps ↔ List.Forall₂ (fun v s => ofValue? v = some s) items steps := by
  induction items generalizing steps with
  | nil =>
    rw [ofList?, Option.some.injEq, List.forall₂_nil_left_iff]
    exact eq_comm
  | cons item items ih =>
    rw [ofList?, List.forall₂_cons_left_iff]
    simp only [Option.bind_eq_bind, Option.bind_eq_some_iff, Option.pure_def, Option.some.injEq]
    constructor
    · rintro ⟨s, hs, rest, hrest, rfl⟩
      exact ⟨s, rest, hs, ih.1 hrest, rfl⟩
    · rintro ⟨s, rest, hs, hrest, rfl⟩
      exact ⟨s, hs, rest, ih.2 hrest, rfl⟩

/-- Steps are read from the field with this key. -/
def ReadAt (key : String) (fields : Document.Fields) (steps : List Step) : Prop :=
  ∃ items, Fields.get? key fields = some (.array items)
    ∧ List.Forall₂ (fun v s => ofValue? v = some s) items steps

/-- Steps are found at a key exactly if they are read from the array there. -/
theorem stepsAt_eq_some {key : String} {fields : Document.Fields} {steps : List Step} :
    stepsAt key fields = some (some steps) ↔ ReadAt key fields steps := by
  rw [stepsAt_eq, Option.map_eq_some_iff]
  constructor
  · rintro ⟨v, hv, hsteps⟩
    cases v with
    | array items =>
      rw [ofItems?, ofList?_eq_some] at hsteps
      exact ⟨items, hv, hsteps⟩
    | null => rw [ofItems?.eq_2 _ (by simp)] at hsteps; cases hsteps
    | bool b => rw [ofItems?.eq_2 _ (by simp)] at hsteps; cases hsteps
    | number n => rw [ofItems?.eq_2 _ (by simp)] at hsteps; cases hsteps
    | string s => rw [ofItems?.eq_2 _ (by simp)] at hsteps; cases hsteps
    | object fields => rw [ofItems?.eq_2 _ (by simp)] at hsteps; cases hsteps
  · rintro ⟨items, hitems, hsteps⟩
    refine ⟨.array items, hitems, ?_⟩
    rw [ofItems?, ofList?_eq_some]
    exact hsteps

theorem stepsAt_eq_none {key : String} {fields : Document.Fields} :
    stepsAt key fields = none ↔ Fields.get? key fields = none := by
  rw [stepsAt_eq, Option.map_eq_none_iff]

/-- The steps of the second branch are read from the one of its two fields that is there. -/
inductive ReadSecond (fields : Document.Fields) : List Step → Prop
  | otherwise {no : List Step} (h : ReadAt "otherwise" fields no)
      (helse : Fields.get? "else" fields = none) : ReadSecond fields no
  | else {no : List Step} (hotherwise : Fields.get? "otherwise" fields = none)
      (h : ReadAt "else" fields no) : ReadSecond fields no
  | absent (hotherwise : Fields.get? "otherwise" fields = none)
      (helse : Fields.get? "else" fields = none) : ReadSecond fields []

/-- A second branch is read under one of its names, or is empty. -/
theorem either_eq_some {fields : Document.Fields} {no : List Step} :
    (stepsAt "otherwise" fields).either (stepsAt "else" fields) = some no
      ↔ ReadSecond fields no := by
  constructor
  · intro h
    unfold Found.either at h
    split at h
    · cases h
    · rename_i hotherwise helse
      rw [h] at hotherwise
      exact .otherwise (stepsAt_eq_some.1 hotherwise) (stepsAt_eq_none.1 helse)
    · rename_i hotherwise helse
      rw [h] at helse
      exact .else (stepsAt_eq_none.1 hotherwise) (stepsAt_eq_some.1 helse)
    · rename_i hotherwise helse
      cases h
      exact .absent (stepsAt_eq_none.1 hotherwise) (stepsAt_eq_none.1 helse)
  · intro h
    cases h with
    | otherwise h helse => rw [stepsAt_eq_some.2 h, stepsAt_eq_none.2 helse]; rfl
    | «else» hotherwise h => rw [stepsAt_eq_none.2 hotherwise, stepsAt_eq_some.2 h]; rfl
    | absent hotherwise helse => rw [stepsAt_eq_none.2 hotherwise, stepsAt_eq_none.2 helse]; rfl

/-- The type of a step. -/
def tag : Step → Tag
  | tool _ => .tool
  | loop _ => .loop
  | parallel _ _ => .parallel
  | reduce _ => .reduce
  | conditional _ _ _ _ => .conditional
  | final _ => .final

theorem name_tag (s : Step) : s.tag.name = s.kind := by
  cases s <;> rfl

theorem Tag.ofName?_name (tag : Tag) : Tag.ofName? tag.name = some tag := by
  cases tag <;> rfl

theorem Tag.eq_of_name_eq {tag other : Tag} (h : tag.name = other.name) : tag = other := by
  have hnames := (Tag.ofName?_name tag).symm.trans (congrArg Tag.ofName? h)
  exact Option.some.inj (hnames.trans (Tag.ofName?_name other))

/-- A step of this type is a tool step. -/
theorem exists_eq_tool {s : Step} (h : s.tag = .tool) : ∃ t, s = .tool t := by
  cases s with
  | tool t => exact ⟨t, rfl⟩
  | loop s => cases h
  | parallel shell steps => cases h
  | reduce s => cases h
  | conditional shell condition yes no => cases h
  | final s => cases h

/-- The fields name this type. -/
def Tagged (fields : Document.Fields) (tag : Tag) : Prop :=
  required Tag.ofValue? fields "type" = some tag

/-- The fields from which a step is read, its type aside. -/
def ReadFrom (fields : Document.Fields) : Step → Prop
  | tool s => s.ReadFrom fields
  | loop s => s.ReadFrom fields
  | parallel shell steps => shell.ReadFrom fields ∧ ReadAt "steps" fields steps
  | reduce s => s.ReadFrom fields
  | conditional shell condition yes no =>
      shell.ReadFrom fields ∧ required text fields "condition" = some condition
        ∧ ReadAt "then" fields yes ∧ ReadSecond fields no
  | final s => s.ReadFrom fields

section ReadFrom

variable {fields : Document.Fields} {s : Step} (h : s.ReadFrom fields)

include h

/-- The dependencies are read from their field, whatever the type. -/
theorem ReadFrom.dependsOn : withDefault [] texts fields "depends_on" = some s.dependsOn := by
  cases s with
  | tool s => exact ToolStep.ReadFrom.dependsOn h
  | loop s => exact LoopStep.ReadFrom.dependsOn h
  | parallel shell steps => exact h.1.dependsOn
  | reduce s => exact ReduceStep.ReadFrom.dependsOn h
  | conditional shell condition yes no => exact h.1.dependsOn
  | final s => exact FinalStep.ReadFrom.dependsOn h

/-- The policy is read from its fields, whatever the type. -/
theorem ReadFrom.policy : s.policy.ReadFrom fields := by
  cases s with
  | tool s => exact ToolStep.ReadFrom.policy h
  | loop s => exact LoopStep.ReadFrom.policy h
  | parallel shell steps => exact h.1.policy
  | reduce s => exact ReduceStep.ReadFrom.policy h
  | conditional shell condition yes no => exact h.1.policy
  | final s => exact FinalStep.ReadFrom.policy h

/-- The body of a step is read from an object of its own. -/
theorem ReadFrom.body {body : ToolStep} (hbody : s.body? = some body) :
    ∃ inner, body.ReadFrom inner := by
  cases s with
  | loop s =>
    obtain ⟨v, -, hv⟩ := required_eq_some.1 (LoopStep.ReadFrom.body h)
    obtain ⟨inner, -, hinner⟩ := ToolStep.ofValue?_eq_some.1 hv
    exact ⟨inner, Option.some.inj hbody ▸ hinner⟩
  | reduce s =>
    obtain ⟨v, -, hv⟩ := required_eq_some.1 (ReduceStep.ReadFrom.reducer h)
    rcases Reducer.ofValue?_eq_some.1 hv with ⟨tool, -, hreducer⟩ | ⟨step, hstep, hreducer⟩
    · simp [body?, hreducer] at hbody
    · obtain rfl : step = body := by simpa [body?, hreducer] using hbody
      obtain ⟨inner, -, hinner⟩ := ToolStep.ofValue?_eq_some.1 hstep
      exact ⟨inner, hinner⟩
  | tool s => cases hbody
  | parallel shell steps => cases hbody
  | conditional shell condition yes no => cases hbody
  | final s => cases hbody

end ReadFrom

/-- Reading by type, given the fields of an object. -/
def typedOf? (fields : Document.Fields) : Option Step :=
  typed? fields (stepsAt "steps" fields) (stepsAt "then" fields)
    ((stepsAt "otherwise" fields).either (stepsAt "else" fields))

/-- A step is read as the type that it names, or else as a tool step. -/
theorem ofValue?_object (fields : Document.Fields) :
    ofValue? (.object fields) = (typedOf? fields).or ((ToolStep.ofFields? fields).map .tool) := by
  rw [ofValue?, typedOf?]
  split
  · rename_i heq
    rw [heq, Option.some_or]
  · rename_i heq
    rw [heq, Option.none_or]

/-- A step that is read by its type. -/
theorem typedOf?_eq_some {fields : Document.Fields} {s : Step} :
    typedOf? fields = some s ↔ Tagged fields s.tag ∧ s.ReadFrom fields := by
  constructor
  · intro h
    rw [typedOf?, typed?] at h
    obtain ⟨tag, htag, h⟩ := Option.bind_eq_some_iff.1 h
    -- one reader for each type; what each of them has found is a structure of its own
    cases tag <;> simp only [Option.bind_eq_bind, Option.bind_eq_some_iff, Option.pure_def,
      Option.some.injEq] at h
    case tool =>
      obtain ⟨t, ht, rfl⟩ := h
      exact ⟨htag, ToolStep.ofFields?_eq_some.1 ht⟩
    case loop =>
      obtain ⟨t, ht, rfl⟩ := h
      exact ⟨htag, LoopStep.ofFields?_eq_some.1 ht⟩
    case parallel =>
      obtain ⟨shell, hshell, found, hfound, steps, rfl, rfl⟩ := h
      exact ⟨htag, Shell.ofFields?_eq_some.1 hshell, stepsAt_eq_some.1 hfound⟩
    case reduce =>
      obtain ⟨t, ht, rfl⟩ := h
      exact ⟨htag, ReduceStep.ofFields?_eq_some.1 ht⟩
    case conditional =>
      obtain ⟨shell, hshell, condition, hcondition, found, hfound, yes, rfl, no, hno, rfl⟩ := h
      exact ⟨htag, Shell.ofFields?_eq_some.1 hshell, hcondition, stepsAt_eq_some.1 hfound,
        either_eq_some.1 hno⟩
    case final =>
      obtain ⟨t, ht, rfl⟩ := h
      exact ⟨htag, FinalStep.ofFields?_eq_some.1 ht⟩
  · rintro ⟨htag, hs⟩
    rw [typedOf?, typed?, show required Tag.ofValue? fields "type" = some s.tag from htag,
      Option.bind_eq_bind, Option.bind_some]
    cases s with
    | tool s =>
      rw [tag, ToolStep.ofFields?_eq_some.2 hs]
      rfl
    | loop s =>
      rw [tag, LoopStep.ofFields?_eq_some.2 hs]
      rfl
    | parallel shell steps =>
      rw [tag, Shell.ofFields?_eq_some.2 hs.1, stepsAt_eq_some.2 hs.2]
      rfl
    | reduce s =>
      rw [tag, ReduceStep.ofFields?_eq_some.2 hs]
      rfl
    | conditional shell condition yes no =>
      obtain ⟨hshell, hcondition, hyes, hno⟩ := hs
      rw [tag, Shell.ofFields?_eq_some.2 hshell, hcondition, stepsAt_eq_some.2 hyes,
        either_eq_some.2 hno]
      rfl
    | final s =>
      rw [tag, FinalStep.ofFields?_eq_some.2 hs]
      rfl

/-- A step is read by the type that its fields name, or else as a tool step. -/
theorem ofValue?_object_eq_some {fields : Document.Fields} {s : Step} :
    ofValue? (.object fields) = some s
      ↔ s.ReadFrom fields ∧ (Tagged fields s.tag ∨ typedOf? fields = none ∧ s.tag = .tool) := by
  rw [ofValue?_object, Option.or_eq_some_iff, typedOf?_eq_some]
  constructor
  · rintro (⟨htag, hs⟩ | ⟨hnone, hs⟩)
    · exact ⟨hs, .inl htag⟩
    · obtain ⟨t, ht, rfl⟩ := Option.map_eq_some_iff.1 hs
      exact ⟨ToolStep.ofFields?_eq_some.1 ht, .inr ⟨hnone, rfl⟩⟩
  · rintro ⟨hs, htag | ⟨hnone, htool⟩⟩
    · exact .inl ⟨htag, hs⟩
    · obtain ⟨t, rfl⟩ := exists_eq_tool htool
      exact .inr ⟨hnone, Option.map_eq_some_iff.2 ⟨t, ToolStep.ofFields?_eq_some.2 hs, rfl⟩⟩

/-- A step is read from an object. -/
theorem exists_object_of_ofValue? {v : Value} {s : Step} (h : ofValue? v = some s) :
    ∃ fields, v = .object fields := by
  cases v with
  | object fields => exact ⟨fields, rfl⟩
  | null => rw [ofValue?.eq_2 _ (by simp)] at h; cases h
  | bool b => rw [ofValue?.eq_2 _ (by simp)] at h; cases h
  | number n => rw [ofValue?.eq_2 _ (by simp)] at h; cases h
  | string s => rw [ofValue?.eq_2 _ (by simp)] at h; cases h
  | array items => rw [ofValue?.eq_2 _ (by simp)] at h; cases h

/-- Every step that is read at a key comes from an item there. -/
theorem ReadAt.exists_item {key : String} {fields : Document.Fields} {steps : List Step}
    (h : ReadAt key fields steps) {t : Step} (ht : t ∈ steps) :
    ∃ items, Fields.get? key fields = some (.array items) ∧ ∃ v ∈ items, ofValue? v = some t := by
  obtain ⟨items, hitems, hsteps⟩ := h
  exact ⟨items, hitems, exists_left_of_mem hsteps ht⟩

/-- The steps inside a step that is read are read themselves. -/
theorem exists_read_of_mem_children {fields : Document.Fields} {s t : Step}
    (h : s.ReadFrom fields) (ht : t ∈ s.children) : ∃ v, ofValue? v = some t := by
  have hat : ∀ key steps, ReadAt key fields steps → t ∈ steps → ∃ v, ofValue? v = some t := by
    intro key steps hsteps ht
    obtain ⟨_, _, v, _, hv⟩ := hsteps.exists_item ht
    exact ⟨v, hv⟩
  cases s with
  | parallel shell steps => exact hat "steps" steps h.2 ht
  | conditional shell condition yes no =>
    obtain ⟨-, -, hyes, hno⟩ := h
    rcases List.mem_append.1 ht with ht | ht
    · exact hat "then" yes hyes ht
    · cases hno with
      | otherwise hno _ => exact hat "otherwise" no hno ht
      | «else» _ hno => exact hat "else" no hno ht
      | absent _ _ => exact absurd ht List.not_mem_nil
  | tool s => exact absurd ht List.not_mem_nil
  | loop s => exact absurd ht List.not_mem_nil
  | reduce s => exact absurd ht List.not_mem_nil
  | final s => exact absurd ht List.not_mem_nil

end Step

/-! ## Plans -/

/-- A plan is read exactly if its version, its mode and its steps are. -/
theorem Plan.ofValue?_object_eq_some {fields : Document.Fields} {p : Plan} :
    Plan.ofValue? (.object fields) = some p
      ↔ required Plan.version? fields "version" = some p.version
        ∧ aliased .dag Mode.ofValue? fields "execution_mode" "executionMode" = some p.mode
        ∧ Step.ReadAt "steps" fields p.steps := by
  have hsteps : ∀ steps, required Step.ofItems? fields "steps" = some steps
      ↔ Step.ReadAt "steps" fields steps := by
    intro steps
    rw [← Step.stepsAt_eq_some, Step.stepsAt_eq, required]
    cases Fields.get? "steps" fields with
    | none => simp
    | some v => simp
  rw [← hsteps]
  constructor
  · intro h
    simp only [Plan.ofValue?, Option.bind_eq_bind, Option.bind_eq_some_iff, Option.pure_def,
      Option.some.injEq] at h
    obtain ⟨_, h₁, _, h₂, _, h₃, rfl⟩ := h
    exact ⟨h₁, h₂, h₃⟩
  · rintro ⟨h₁, h₂, h₃⟩
    rw [Plan.ofValue?, h₁, h₂, h₃]
    rfl

/-- Reading without a check succeeds exactly if there is a plan. -/
theorem Plan.convert_eq_ok {d : Value} {p : Plan} :
    Plan.convert d = .ok p ↔ Plan.ofValue? d = some p := by
  rw [Plan.convert]
  cases Plan.ofValue? d with
  | none => simp
  | some q => simp

end Wavefront
