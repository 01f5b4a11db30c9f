/-
When a document that passes the check is read as what has been checked.

The check goes by the type that a step names and looks at some fields of the bodies that steps carry
only in passing: that the id of a body is a text, that it waits for a list of ids and that its
limits are numbers is not asked. The reader asks for that. If it is not so, or if a field stands
there under both of its names, the step does not read, and then either nothing is read at all or, if
the step happens to name a tool, a call of that tool is read in place of the step and everything
inside it.

`Plan.convert_follows_iff` says when that does not happen. One direction builds the reading from the
fields, the other takes apart a reading that has the ids and the kinds of the steps on the walk; a
reading that has lost steps has fewer of them than the walk, at every level, so equal lists are
equal part by part.
-/
import Wavefront.Proofs.Plan.Visited

set_option autoImplicit false

namespace Wavefront

open Document

namespace Survey

/-! ## What the check leaves open -/

/-- The fields of a body that are not looked at can be read. -/
def bodyFits (body : Fields) : Bool :=
  (withDefault "" text body "id").isSome && (withDefault [] texts body "depends_on").isSome
    && (optional word body "timeout_ms").isSome && (optional halfWord body "max_retries").isSome

/-- The second branch is given under both of its names. -/
def isForked (fields : Fields) : Bool :=
  typeOf? fields = some "conditional" && Wavefront.Fields.contains "otherwise" fields
    && Wavefront.Fields.contains "else" fields

/-- The step can be read, as far as the check leaves it open. -/
def fits (fields : Fields) : Bool := (bodyOf? fields).all bodyFits && !isForked fields

/-! ## Reading single fields -/

section

variable {fields : Fields} {field : String}

/-- A text that the check wants is read. -/
theorem HasText.required (h : HasText fields field) : ∃ s, required text fields field = some s := by
  obtain ⟨s, hs⟩ := h
  refine ⟨s, ?_⟩
  rw [required_of_get? (usableText?_eq_some.1 hs).1]
  rfl

/-- An option is read if what stands in its field is. -/
theorem exists_optional {α : Type} {read : Value → Option α}
    (h : ∀ v, Wavefront.Fields.get? field fields = some v → ∃ a, read v = some a) :
    ∃ o, optional read fields field = some o := by
  unfold Document.optional
  split
  · exact ⟨none, rfl⟩
  · exact ⟨none, rfl⟩
  · rename_i v _ hfield
    obtain ⟨a, ha⟩ := h v hfield
    exact ⟨some a, congrArg (Option.map some) ha⟩

theorem TextIfAny.optional (h : TextIfAny fields field) :
    ∃ o, optional text fields field = some o :=
  exists_optional fun v hv => Option.isSome_iff_exists.1 (h v hv)

/-- A number within bounds is a word within them. -/
theorem exists_word_of_isWithin {least : Nat} {most : Option Nat} {v : Value}
    (h : isWithin least most v = true) :
    ∃ w, v.word? = some w ∧ least ≤ w.toNat ∧ most.all (w.toNat ≤ ·) = true := by
  unfold isWithin at h
  split at h
  · rename_i w hw
    rw [Bool.and_eq_true, decide_eq_true_eq] at h
    exact ⟨w, hw, h⟩
  · cases h

/-- A number that may be left out is read as a word. -/
theorem NumberIfAny.optional_word {least : Nat} {most : Option Nat}
    (h : NumberIfAny fields field least most) : ∃ o, optional word fields field = some o := by
  refine exists_optional fun v hv => ?_
  obtain ⟨w, hw, -⟩ := exists_word_of_isWithin (h v hv)
  exact ⟨w, hw⟩

/-- A small word is one of half the width. -/
theorem halfWord?_of_word? {v : Value} {w : UInt64} (hw : v.word? = some w)
    (hsmall : w.toNat < UInt32.size) : v.halfWord? = some w.toUInt32 := by
  cases v with
  | number n =>
    rw [Value.halfWord?, Number.halfWord?, show n.word? = some w from hw, Option.bind_some,
      if_pos hsmall]
  | null => cases hw
  | bool b => cases hw
  | string s => cases hw
  | array items => cases hw
  | object fields => cases hw

/-- A number that is bounded by a small one is read as a word of half the width. -/
theorem NumberIfAny.optional_halfWord {most : Nat}
    (h : NumberIfAny fields field 0 (some most)) (hmost : most < UInt32.size) :
    ∃ o, optional halfWord fields field = some o := by
  refine exists_optional fun v hv => ?_
  obtain ⟨w, hw, -, hle⟩ := exists_word_of_isWithin (h v hv)
  rw [Option.all_some, decide_eq_true_eq] at hle
  exact ⟨w.toUInt32, halfWord?_of_word? hw (by omega)⟩

/-- Ids that are waited for are read, and are none where nothing is said. -/
theorem IdsIfAny.withDefault (h : IdsIfAny fields) :
    ∃ ids, withDefault [] texts fields "depends_on" = some ids := by
  cases hfield : Wavefront.Fields.get? "depends_on" fields with
  | none => exact ⟨[], withDefault_of_get?_eq_none hfield⟩
  | some v =>
    obtain ⟨items, rfl, hitems⟩ := h v hfield
    rw [withDefault_of_get? hfield, texts_array]
    clear hfield h
    induction items with
    | nil => exact ⟨[], rfl⟩
    | cons item items ih =>
      obtain ⟨s, hs⟩ := Option.isSome_iff_exists.1 (hitems item List.mem_cons_self)
      obtain ⟨ids, hids⟩ := ih fun v hv => hitems v (List.mem_cons_of_mem item hv)
      refine ⟨s :: ids, ?_⟩
      rw [List.mapM_cons, hids, show text item = some s from hs]
      rfl

theorem exists_schema (fields : Fields) : ∃ o, optional some fields "input_schema" = some o :=
  exists_optional fun v _ => ⟨v, rfl⟩

/-- The fields of a policy that pass the check are read. -/
theorem HasCommon.exists_policy (h : HasCommon fields) : ∃ p : Policy, p.ReadFrom fields := by
  obtain ⟨timeoutMs, htimeout⟩ := h.timeoutMs.optional_word
  obtain ⟨maxRetries, hretries⟩ := h.maxRetries.optional_halfWord (by decide)
  obtain ⟨inputSchema, hschema⟩ := exists_schema fields
  exact ⟨⟨timeoutMs, maxRetries, inputSchema⟩, htimeout, hretries, hschema⟩

/-- An input is read, whatever it is. -/
theorem exists_input (fields : Fields) : ∃ v, withDefault .null some fields "input" = some v := by
  unfold Document.withDefault
  split
  · exact ⟨.null, rfl⟩
  · exact ⟨_, rfl⟩

end

/-! ## Reading steps -/

/-- A body whose fields fit is read. -/
theorem exists_body {body : Fields} (h : IsBody body) (hfits : bodyFits body = true) :
    ∃ s : ToolStep, s.ReadFrom body := by
  simp only [bodyFits, Bool.and_eq_true, Option.isSome_iff_exists] at hfits
  obtain ⟨⟨⟨⟨id, hid⟩, ids, hids⟩, timeoutMs, htimeout⟩, maxRetries, hretries⟩ := hfits
  obtain ⟨tool, htool⟩ := h.tool.required
  obtain ⟨input, hinput⟩ := exists_input body
  obtain ⟨output, houtput⟩ := h.output.optional
  obtain ⟨inputSchema, hschema⟩ := exists_schema body
  exact ⟨⟨id, tool, input, output, ids, ⟨timeoutMs, maxRetries, inputSchema⟩⟩, hid, htool, hinput,
    houtput, hids, htimeout, hretries, hschema⟩

/-- The body of a loop is read if it fits. -/
theorem HasBody.exists_body {fields : Fields} {field : String} (h : HasBody fields field)
    (hfits : ((Wavefront.Fields.get? field fields).bind Value.object?).all bodyFits = true) :
    ∃ s, required ToolStep.ofValue? fields field = some s := by
  obtain ⟨body, hbody, his⟩ := h
  rw [hbody, Option.bind_some, Value.object?, Option.all_some] at hfits
  obtain ⟨s, hs⟩ := Survey.exists_body his hfits
  refine ⟨s, ?_⟩
  rw [required_of_get? hbody, ToolStep.ofValue?_eq_some]
  exact ⟨body, rfl, hs⟩

/-- A reducer is read if it is only named, or if it fits. -/
theorem HasReducer.exists_reducer {fields : Fields} {field : String} (h : HasReducer fields field)
    (hfits : ((Wavefront.Fields.get? field fields).bind Value.object?).all bodyFits = true) :
    ∃ r, required Reducer.ofValue? fields field = some r := by
  rcases h with ⟨s, hs, -⟩ | h
  · refine ⟨.named s, ?_⟩
    rw [required_of_get? hs]
    rfl
  · obtain ⟨s, hs⟩ := h.exists_body hfits
    obtain ⟨v, hv, hs⟩ := required_eq_some.1 hs
    refine ⟨.inline s, ?_⟩
    rw [required_of_get? hv, Reducer.ofValue?_eq_some]
    exact .inr ⟨s, hs, rfl⟩

end Survey

namespace Step

open Survey

/-- An array of steps is read if each of its items is. -/
theorem exists_readAt {fields : Document.Fields} {key : String} {items : List Value}
    (hitems : Wavefront.Fields.get? key fields = some (.array items))
    (h : ∀ v ∈ items, ∃ s, ofValue? v = some s) : ∃ steps, ReadAt key fields steps := by
  suffices hread : ∃ steps, List.Forall₂ (fun v s => ofValue? v = some s) items steps by
    obtain ⟨steps, hsteps⟩ := hread
    exact ⟨steps, items, hitems, hsteps⟩
  clear hitems
  induction items with
  | nil => exact ⟨[], .nil⟩
  | cons item items ih =>
    obtain ⟨s, hs⟩ := h item List.mem_cons_self
    obtain ⟨steps, hsteps⟩ := ih fun v hv => h v (List.mem_cons_of_mem item hv)
    exact ⟨s :: steps, .cons hs hsteps⟩

/-- What a group has besides its members is read. -/
theorem exists_shell {members : String → Bool → Prop} {fields : Document.Fields} {tag : Tag}
    (h : IsStep members fields tag) : ∃ shell : Shell, shell.ReadFrom fields := by
  obtain ⟨id, hid⟩ := h.id.required
  obtain ⟨output, houtput⟩ := h.common.output.optional
  obtain ⟨ids, hids⟩ := h.dependsOn.withDefault
  obtain ⟨policy, hpolicy⟩ := h.common.exists_policy
  exact ⟨⟨id, output, ids, policy⟩, hid, houtput, hids, hpolicy⟩

/-- Not both names of the second branch are in use. -/
theorem exists_readSecond {fields : Document.Fields} (htype : typeOf? fields = some "conditional")
    (hfits : isForked fields = false)
    (hread : ∀ key items, Wavefront.Fields.get? key fields = some (.array items) →
      key ∈ memberKeys (typeOf? fields) → ∃ steps, ReadAt key fields steps)
    (hotherwise : HasSteps Accepts fields "otherwise" false)
    (helse : HasSteps Accepts fields "else" false) : ∃ no, ReadSecond fields no := by
  rw [htype] at hread
  rcases hotherwise with ⟨-, hnone⟩ | ⟨items, hitems, -⟩
  · rcases helse with ⟨-, helse⟩ | ⟨items, hitems, -⟩
    · exact ⟨[], .absent hnone helse⟩
    · obtain ⟨no, hno⟩ := hread "else" items hitems (by simp [memberKeys])
      exact ⟨no, .else hnone hno⟩
  · rcases helse with ⟨-, helse⟩ | ⟨others, hothers, -⟩
    · obtain ⟨no, hno⟩ := hread "otherwise" items hitems (by simp [memberKeys])
      exact ⟨no, .otherwise hno helse⟩
    · simp [isForked, htype, Wavefront.Fields.contains, hitems, hothers] at hfits

/-- A step that is accepted and fits is read by its type if the steps inside it are read. -/
theorem exists_readFrom {fields : Document.Fields} {tag : Tag}
    (h : IsStep (HasSteps Accepts fields) fields tag) (hfits : fits fields = true)
    (hinside : ∀ v ∈ members fields, ∃ s, ofValue? v = some s) :
    ∃ s : Step, s.tag = tag ∧ s.ReadFrom fields := by
  obtain ⟨output, houtput⟩ := h.common.output.optional
  obtain ⟨ids, hids⟩ := h.dependsOn.withDefault
  obtain ⟨policy, hpolicy⟩ := h.common.exists_policy
  obtain ⟨id, hid⟩ := h.id.required
  obtain ⟨input, hinput⟩ := exists_input fields
  rw [fits, Bool.and_eq_true, Bool.not_eq_true'] at hfits
  obtain ⟨hbody, hforked⟩ := hfits
  have hread : ∀ key items, Wavefront.Fields.get? key fields = some (.array items) →
      key ∈ memberKeys (typeOf? fields) → ∃ steps, ReadAt key fields steps := by
    intro key items hitems hkey
    refine exists_readAt hitems fun v hv => hinside v (List.mem_flatMap.2 ⟨key, hkey, ?_⟩)
    rwa [itemsAt_of_get? hitems]
  have htype := h.type
  have hform := h.form
  -- the type is settled by the check; what is left for each of them is to read its own fields
  cases tag with
  | tool =>
    obtain ⟨tool, htool⟩ := HasText.required hform
    refine ⟨.tool ⟨id, tool, input, output, ids, policy⟩, rfl, ?_, htool, hinput, houtput, hids,
      hpolicy⟩
    obtain ⟨v, hv, hid⟩ := required_eq_some.1 hid
    rw [withDefault_of_get? hv, hid]
  | loop =>
    obtain ⟨⟨items, hitems, -⟩, has, hstep, hconcurrency⟩ := hform
    obtain ⟨binder, hbinder⟩ := has.required
    obtain ⟨concurrency, hconcurrency⟩ := hconcurrency.optional_word
    rw [bodyOf?, htype] at hbody
    obtain ⟨body, hbody⟩ := hstep.exists_body hbody
    exact ⟨.loop ⟨id, items, binder, body, output, concurrency, ids, policy⟩, rfl, hid,
      required_of_get? hitems, hbinder, hbody, houtput, hconcurrency, hids, hpolicy⟩
  | parallel =>
    obtain ⟨shell, hshell⟩ := exists_shell h
    rcases hform with ⟨hneeded, -⟩ | ⟨items, hitems, -⟩
    · cases hneeded
    · obtain ⟨steps, hsteps⟩ := hread "steps" items hitems (by simp [htype, Tag.name, memberKeys])
      exact ⟨.parallel shell steps, rfl, hshell, hsteps⟩
  | reduce =>
    obtain ⟨⟨items, hitems, -⟩, has, hout, hconcurrency, hreducer⟩ := hform
    obtain ⟨binder, hbinder⟩ := has.required
    obtain ⟨output, houtput⟩ := hout.required
    obtain ⟨concurrency, hconcurrency⟩ := hconcurrency.optional_word
    rw [bodyOf?, htype] at hbody
    obtain ⟨reducer, hreducer⟩ := hreducer.exists_reducer hbody
    exact ⟨.reduce ⟨id, items, binder, reducer, output, concurrency, ids, policy⟩, rfl, hid,
      required_of_get? hitems, hbinder, hreducer, houtput, hconcurrency, hids, hpolicy⟩
  | conditional =>
    obtain ⟨shell, hshell⟩ := exists_shell h
    obtain ⟨hcondition, hyes, hotherwise, helse⟩ := hform
    obtain ⟨condition, hcondition⟩ := hcondition.required
    -- the second branch has two names, of which one at most is used
    obtain ⟨no, hno⟩ := exists_readSecond htype hforked hread hotherwise helse
    rcases hyes with ⟨hneeded, -⟩ | ⟨items, hitems, -⟩
    · cases hneeded
    · obtain ⟨yes, hyes⟩ := hread "then" items hitems (by simp [htype, Tag.name, memberKeys])
      exact ⟨.conditional shell condition yes no, rfl, hshell, hcondition, hyes, hno⟩
  | final =>
    obtain ⟨function, hfunction⟩ := TextIfAny.optional hform
    exact ⟨.final ⟨id, function, input, output, ids, policy⟩, rfl, hid, hfunction, hinput, houtput,
      hids, hpolicy⟩

/-! ## What is read stands on the walk -/

/-- The type that fields are tagged with is the one that the check goes by. -/
theorem typeOf?_of_tagged {fields : Document.Fields} {tag other : Tag} (h : Tagged fields tag)
    (htype : typeOf? fields = some other.name) : other = tag := by
  obtain ⟨v, hv, htag⟩ := required_eq_some.1 h
  unfold typeOf? at htype
  rw [hv] at htype
  cases v with
  | string s =>
    obtain ⟨-, hs⟩ := Option.ite_none_right_eq_some.1 htype
    obtain rfl := Option.some.inj hs
    exact Option.some.inj ((Tag.ofName?_name other).symm.trans htag)
  | null => cases htype
  | bool b => cases htype
  | number n => cases htype
  | array items => cases htype
  | object fields => cases htype

/-- A step is read as what its type says if its fields allow that. -/
theorem ofValue?_of_readFrom {fields : Document.Fields} {s : Step} (h : s.ReadFrom fields)
    (htype : typeOf? fields = some s.kind) : ofValue? (.object fields) = some s := by
  rw [ofValue?_object_eq_some]
  refine ⟨h, ?_⟩
  rw [← name_tag] at htype
  cases hfield : Wavefront.Fields.get? "type" fields with
  | none =>
    -- without a type the check takes the step for a tool step
    have htool : s.tag = .tool := by
      simp only [typeOf?, hfield, Option.ite_none_right_eq_some, Option.some.injEq] at htype
      cases htag : s.tag <;> rw [htag] at htype <;> simp [Tag.name] at htype ⊢
    refine .inr ⟨Option.eq_none_iff_forall_ne_some.2 fun t ht => ?_, htool⟩
    obtain ⟨v, hv, -⟩ := required_eq_some.1 (typedOf?_eq_some.1 ht).1
    cases hfield.symm.trans hv
  | some v =>
    refine .inl (required_eq_some.2 ⟨v, hfield, ?_⟩)
    unfold typeOf? at htype
    rw [hfield] at htype
    cases v with
    | string name =>
      obtain ⟨-, hname⟩ := Option.ite_none_right_eq_some.1 htype
      obtain rfl := Option.some.inj hname
      exact Tag.ofName?_name s.tag
    | null => cases htype
    | bool b => cases htype
    | number n => cases htype
    | array items => cases htype
    | object fields => cases htype

/-- A step that is read has the id that the check has seen. -/
theorem ReadFrom.usableText? {fields : Document.Fields} {s : Step} (h : s.ReadFrom fields)
    (hid : HasText fields "id") : Survey.usableText? fields "id" = some s.id := by
  obtain ⟨id, husable⟩ := hid
  have hfield := (usableText?_eq_some.1 husable).1
  have hrequired : required text fields "id" = text (.string id) := required_of_get? hfield
  suffices hread : required text fields "id" = some s.id by
    rw [husable, ← hread, hrequired]
    rfl
  cases s with
  | tool s =>
    have hdefault := ToolStep.ReadFrom.id h
    rwa [withDefault_of_get? hfield, ← hrequired] at hdefault
  | loop s => exact LoopStep.ReadFrom.id h
  | parallel shell steps => exact h.1.id
  | reduce s => exact ReduceStep.ReadFrom.id h
  | conditional shell condition yes no => exact h.1.id
  | final s => exact FinalStep.ReadFrom.id h

/-- The steps of a field are read from its items, one from each. -/
theorem ReadAt.forall₂_itemsAt {key : String} {fields : Document.Fields} {steps : List Step}
    (h : ReadAt key fields steps) :
    List.Forall₂ (fun v s => ofValue? v = some s) (itemsAt key fields) steps := by
  obtain ⟨items, hitems, hsteps⟩ := h
  rwa [itemsAt_of_get? hitems]

/-- The steps inside a step that is read as what its type says are those on the walk. -/
theorem ReadFrom.forall₂_members {fields : Document.Fields} {s : Step} (h : s.ReadFrom fields)
    (htype : typeOf? fields = some s.kind) :
    List.Forall₂ (fun v t => ofValue? v = some t) (members fields) s.children := by
  rw [members_of_type htype]
  cases s with
  | parallel shell steps =>
    have hsteps := h.2.forall₂_itemsAt
    simpa [kind, memberKeys, children] using hsteps
  | conditional shell condition yes no =>
    obtain ⟨-, -, hyes, hno⟩ := h
    have hkeys : (memberKeys (some (conditional shell condition yes no).kind)).flatMap
        (fun key => itemsAt key fields) = itemsAt "then" fields
          ++ (itemsAt "otherwise" fields ++ itemsAt "else" fields) := by
      simp [kind, memberKeys]
    rw [hkeys]
    refine List.rel_append hyes.forall₂_itemsAt ?_
    -- whichever name the second branch goes by, the other one holds nothing
    cases hno with
    | otherwise hno helse =>
      rw [itemsAt_of_get?_eq_none helse, List.append_nil]
      exact hno.forall₂_itemsAt
    | «else» hotherwise hno =>
      rw [itemsAt_of_get?_eq_none hotherwise]
      exact hno.forall₂_itemsAt
    | absent hotherwise helse =>
      rw [itemsAt_of_get?_eq_none hotherwise, itemsAt_of_get?_eq_none helse]
      exact .nil
  | tool s => exact .nil
  | loop s => exact .nil
  | reduce s => exact .nil
  | final s => exact .nil

/-- The body that is read has the id that comes up for it. -/
theorem bodyId_eq {fields : Document.Fields} {field : String} {s : ToolStep}
    (h : required ToolStep.ofValue? fields field = some s) :
    bodyId ((Wavefront.Fields.get? field fields).bind Value.object?) = [s.id].filter (· ≠ "") := by
  obtain ⟨v, hv, hs⟩ := required_eq_some.1 h
  obtain ⟨body, rfl, hbody⟩ := ToolStep.ofValue?_eq_some.1 hs
  have hid := hbody.id
  rw [hv, Option.bind_some, Value.object?, bodyId, Option.bind_some]
  unfold Document.withDefault at hid
  split at hid
  · rename_i hnone
    rw [hnone, ← Option.some.inj hid]
    rfl
  · rename_i w hw
    rw [hw, Option.bind_some, show w.string? = some s.id from hid]
    rfl

/-- The body that is read has the id that the check has seen. -/
theorem ReadFrom.bodyId {fields : Document.Fields} {s : Step} (h : s.ReadFrom fields)
    (htype : typeOf? fields = some s.kind) : bodyId (bodyOf? fields) = s.bodyIds := by
  rw [bodyOf?, htype]
  cases s with
  | loop s => exact bodyId_eq (LoopStep.ReadFrom.body h)
  | reduce s =>
    obtain ⟨v, hv, hreducer⟩ := required_eq_some.1 (ReduceStep.ReadFrom.reducer h)
    rcases Reducer.ofValue?_eq_some.1 hreducer with ⟨tool, rfl, hkind⟩ | ⟨step, hstep, hkind⟩
    · simp [kind, hv, Value.object?, Survey.bodyId, bodyIds, body?, hkind]
    · have hown : (reduce s).bodyIds = [step.id].filter (· ≠ "") := by
        simp [bodyIds, body?, hkind]
      rw [hown]
      exact bodyId_eq (required_eq_some.2 ⟨v, hv, hstep⟩)
  | tool s => rfl
  | parallel shell steps => rfl
  | conditional shell condition yes no => rfl
  | final s => rfl

/-- What a reading is known by: the id and the kind. -/
def heading (s : Step) : Option String × Option String := (some s.id, some s.kind)

end Step

/-! ## Lists put together from parts -/

section Parts

variable {α β γ : Type} {r : α → β → Prop} {f : β → List γ} {g : α → List γ} {as : List α}
  {bs : List β}

/-- Parts that are no longer make a whole that is no longer. -/
theorem length_flatMap_le {δ : Type} {g : α → List δ} (h : List.Forall₂ r as bs)
    (hle : ∀ a ∈ as, ∀ b, r a b → (f b).length ≤ (g a).length) :
    (bs.flatMap f).length ≤ (as.flatMap g).length := by
  induction h with
  | nil => exact Nat.le_refl 0
  | @cons a b as bs hab _ ih =>
    have hfirst := hle a List.mem_cons_self b hab
    have hrest := ih fun c hc => hle c (List.mem_cons_of_mem a hc)
    rw [List.flatMap_cons, List.flatMap_cons, List.length_append, List.length_append]
    omega

/-- If no part is longer than its counterpart, then equal lists have equal parts. -/
theorem parts_eq_of_flatMap_eq (h : List.Forall₂ r as bs)
    (hle : ∀ a ∈ as, ∀ b, r a b → (f b).length ≤ (g a).length)
    (heq : bs.flatMap f = as.flatMap g) :
    List.Forall₂ (fun a b => r a b ∧ f b = g a) as bs := by
  induction h with
  | nil => exact .nil
  | @cons a b as bs hab hrest ih =>
    have hfirst := hle a List.mem_cons_self b hab
    have hle' := fun c hc => hle c (List.mem_cons_of_mem a hc)
    have hlength := length_flatMap_le hrest hle'
    rw [List.flatMap_cons, List.flatMap_cons] at heq
    have hsum := congrArg List.length heq
    rw [List.length_append, List.length_append] at hsum
    obtain ⟨hpart, hparts⟩ := List.append_inj heq (by omega)
    exact .cons ⟨hab, hpart⟩ (ih hle' hparts)

/-- Equal parts make equal wholes. -/
theorem flatMap_eq_of_parts_eq (h : List.Forall₂ r as bs)
    (heq : ∀ a ∈ as, ∀ b, r a b → f b = g a) : bs.flatMap f = as.flatMap g := by
  induction h with
  | nil => rfl
  | @cons a b as bs hab _ ih =>
    rw [List.flatMap_cons, List.flatMap_cons, heq a List.mem_cons_self b hab,
      ih fun c hc => heq c (List.mem_cons_of_mem a hc)]

/-- Parts that are sublists make a sublist. -/
theorem flatMap_sublist (h : List.Forall₂ r as bs)
    (hsublist : ∀ a ∈ as, ∀ b, r a b → (f b).Sublist (g a)) :
    (bs.flatMap f).Sublist (as.flatMap g) := by
  induction h with
  | nil => exact List.Sublist.refl _
  | @cons a b as bs hab _ ih =>
    rw [List.flatMap_cons, List.flatMap_cons]
    exact (hsublist a List.mem_cons_self b hab).append
      (ih fun c hc => hsublist c (List.mem_cons_of_mem a hc))

end Parts

namespace Survey

/-- What a step on the walk is known by: its id and its type, as far as they are usable. -/
def heading (fields : Fields) : Option String × Option String :=
  (usableText? fields "id", typeOf? fields)

/-- A step that is accepted is read as what its type says, or as a tool step. -/
theorem typeOf?_eq_kind_or {fields : Fields} {tag : Step.Tag} {members : String → Bool → Prop}
    (h : IsStep members fields tag) {s : Step} (hs : Step.ofValue? (.object fields) = some s) :
    typeOf? fields = some s.kind ∨ s.tag = .tool := by
  rcases (Step.ofValue?_object_eq_some.1 hs).2 with htype | ⟨-, htool⟩
  · rw [← Step.name_tag, ← Step.typeOf?_of_tagged htype h.type]
    exact .inl h.type
  · exact .inr htool

/-- A reading has at most the steps that stand on the walk. -/
theorem length_nested_le {v : Value} (h : Accepts v) {s : Step} (hs : Step.ofValue? v = some s) :
    s.nested.length ≤ (visited v).length := by
  induction v using visitedInduction generalizing s with
  | object fields ih =>
    obtain ⟨tag, htag⟩ := accepts_object.1 h
    have hread := (Step.ofValue?_object_eq_some.1 hs).1
    rw [visited_object, Step.nested_eq, List.length_cons, List.length_cons, Nat.add_le_add_iff_right]
    rcases typeOf?_eq_kind_or htag hs with htype | htool
    · exact length_flatMap_le (hread.forall₂_members htype) fun v hv t ht =>
        ih v hv (Accepts.of_mem_members htag hv) ht
    · -- a tool step has nothing inside, whatever its fields say
      obtain ⟨t, rfl⟩ := Step.exists_eq_tool htool
      exact Nat.zero_le _
  | other v hv =>
    obtain ⟨fields, rfl⟩ := Step.exists_object_of_ofValue? hs
    cases hv

/-- The steps that are read have the same ids and kinds, in the same order, as those on the walk. -/
def Follows (s : Step) (v : Value) : Prop := s.nested.map Step.heading = (visited v).map heading

/-- No reading has more steps than the walk. -/
theorem length_headings_le {v : Value} (h : Accepts v) {s : Step} (hs : Step.ofValue? v = some s) :
    (s.nested.map Step.heading).length ≤ ((visited v).map heading).length := by
  rw [List.length_map, List.length_map]
  exact length_nested_le h hs

theorem bodyFits_of_readFrom {body : Fields} {s : ToolStep} (h : s.ReadFrom body) :
    bodyFits body = true := by
  simp [bodyFits, h.id, h.dependsOn, h.policy.timeoutMs, h.policy.maxRetries]

/-- A field whose body is read has fitted. -/
theorem bodyFits_of_required {fields : Fields} {field : String} {s : ToolStep}
    (h : required ToolStep.ofValue? fields field = some s) :
    ((Wavefront.Fields.get? field fields).bind Value.object?).all bodyFits = true := by
  obtain ⟨v, hv, hs⟩ := required_eq_some.1 h
  obtain ⟨body, rfl, hbody⟩ := ToolStep.ofValue?_eq_some.1 hs
  rw [hv]
  exact bodyFits_of_readFrom hbody

/-- A second branch that is read does not go by two names. -/
theorem isForked_of_readSecond {fields : Fields} {no : List Step} (h : Step.ReadSecond fields no) :
    isForked fields = false := by
  cases h with
  | otherwise _ helse => simp [isForked, Wavefront.Fields.contains, helse]
  | «else» hotherwise _ => simp [isForked, Wavefront.Fields.contains, hotherwise]
  | absent hotherwise _ => simp [isForked, Wavefront.Fields.contains, hotherwise]

/-- A step that is read as what its type says fits. -/
theorem fits_of_readFrom {fields : Fields} {s : Step} (h : s.ReadFrom fields)
    (htype : typeOf? fields = some s.kind) : fits fields = true := by
  rw [fits, Bool.and_eq_true, Bool.not_eq_true', bodyOf?, htype]
  have hforked : s.kind ≠ "conditional" → isForked fields = false := by
    intro hkind
    simp [isForked, htype, hkind]
  cases s with
  | loop s => exact ⟨bodyFits_of_required (LoopStep.ReadFrom.body h), hforked (by simp [Step.kind])⟩
  | reduce s =>
    refine ⟨?_, hforked (by simp [Step.kind])⟩
    obtain ⟨v, hv, hreducer⟩ := required_eq_some.1 (ReduceStep.ReadFrom.reducer h)
    rcases Reducer.ofValue?_eq_some.1 hreducer with ⟨tool, rfl, -⟩ | ⟨step, hstep, -⟩
    · simp [Step.kind, hv, Value.object?]
    · exact bodyFits_of_required (required_eq_some.2 ⟨v, hv, hstep⟩)
  | conditional shell condition yes no => exact ⟨rfl, isForked_of_readSecond h.2.2.2⟩
  | tool s => exact ⟨rfl, hforked (by simp [Step.kind])⟩
  | parallel shell steps => exact ⟨rfl, hforked (by simp [Step.kind])⟩
  | final s => exact ⟨rfl, hforked (by simp [Step.kind])⟩

/-- A reading that has all steps on the walk is what the type says, and the same goes for what is
inside, part by part. -/
theorem Follows.parts {fields : Fields} {tag : Step.Tag}
    (htag : IsStep (HasSteps Accepts fields) fields tag) {s : Step} (hread : s.ReadFrom fields)
    (h : Follows s (.object fields)) :
    typeOf? fields = some s.kind ∧ List.Forall₂ (fun v t => Step.ofValue? v = some t ∧ Follows t v)
      (members fields) s.children := by
  rw [Follows, visited_object, Step.nested_eq, List.map_cons, List.map_cons, List.cons.injEq,
    List.map_flatMap, List.map_flatMap] at h
  obtain ⟨hheading, hinside⟩ := h
  have htype : typeOf? fields = some s.kind := (congrArg Prod.snd hheading).symm
  refine ⟨htype, parts_eq_of_flatMap_eq (hread.forall₂_members htype) ?_ hinside⟩
  exact fun v hv t ht => length_headings_le (Accepts.of_mem_members htag hv) ht

/-- A reading that has all steps of the walk has fitted everywhere. -/
theorem fits_of_follows {v : Value} (h : Accepts v) {s : Step} (hs : Step.ofValue? v = some s)
    (hfollows : Follows s v) : ∀ fields ∈ visited v, fits fields = true := by
  induction v using visitedInduction generalizing s with
  | object fields ih =>
    obtain ⟨tag, htag⟩ := accepts_object.1 h
    have hread := (Step.ofValue?_object_eq_some.1 hs).1
    obtain ⟨htype, hparts⟩ := hfollows.parts htag hread
    rw [visited_object]
    refine List.forall_mem_cons.2 ⟨fits_of_readFrom hread htype, ?_⟩
    intro inner hinner
    obtain ⟨v, hv, hinner⟩ := List.mem_flatMap.1 hinner
    obtain ⟨t, -, ht, hpart⟩ := exists_right_of_mem hparts hv
    exact ih v hv (Accepts.of_mem_members htag hv) ht hpart inner hinner
  | other v hv =>
    obtain ⟨fields, rfl⟩ := Step.exists_object_of_ofValue? hs
    cases hv

/-- If every step on the walk fits, the reading has all of them, with their ids and those of their
bodies. -/
theorem exists_follows {v : Value} (h : Accepts v) (hfits : ∀ fields ∈ visited v, fits fields = true) :
    ∃ s, Step.ofValue? v = some s ∧ Follows s v
      ∧ s.nested.flatMap Step.ownIds = (visited v).flatMap ownIds := by
  -- along the walk, since a step is read after those inside it
  induction v using visitedInduction with
  | object fields ih =>
    obtain ⟨tag, htag⟩ := accepts_object.1 h
    rw [visited_object] at hfits
    obtain ⟨hown, hinside⟩ := List.forall_mem_cons.1 hfits
    have hmembers : ∀ v ∈ members fields, ∃ t, Step.ofValue? v = some t ∧ Follows t v
        ∧ t.nested.flatMap Step.ownIds = (visited v).flatMap ownIds := fun v hv =>
      ih v hv (Accepts.of_mem_members htag hv) fun inner hinner =>
        hinside inner (List.mem_flatMap.2 ⟨v, hv, hinner⟩)
    obtain ⟨s, rfl, hread⟩ := Step.exists_readFrom htag hown fun v hv =>
      (hmembers v hv).imp fun _ ht => ht.1
    have htype : typeOf? fields = some s.kind := by
      rw [← Step.name_tag]
      exact htag.type
    have hid := hread.usableText? htag.id
    have hchildren := hread.forall₂_members htype
    have hparts : ∀ v ∈ members fields, ∀ t, Step.ofValue? v = some t → Follows t v
        ∧ t.nested.flatMap Step.ownIds = (visited v).flatMap ownIds := by
      intro v hv t ht
      obtain ⟨u, hu, hparts⟩ := hmembers v hv
      rwa [Option.some.inj (ht.symm.trans hu)]
    -- the headings and the ids, each put together from those of the members
    refine ⟨s, Step.ofValue?_of_readFrom hread htype, ?_, ?_⟩
    · rw [Follows, visited_object, Step.nested_eq, List.map_cons, List.map_cons, List.map_flatMap,
        List.map_flatMap, heading, hid, htype]
      refine congrArg _ (flatMap_eq_of_parts_eq hchildren fun v hv t ht => ?_)
      exact (hparts v hv t ht).1
    · rw [visited_object, Step.nested_eq, List.flatMap_cons, List.flatMap_cons, List.flatMap_assoc,
        List.flatMap_assoc, ownIds, hid, hread.bodyId htype]
      refine congrArg _ (flatMap_eq_of_parts_eq hchildren fun v hv t ht => ?_)
      exact (hparts v hv t ht).2
  | other v hv =>
    obtain ⟨fields, tag, rfl, -⟩ := h.exists_fields
    cases hv

end Survey

/-! ## Plans -/

namespace Plan

/-- The mode is given under both of its names. -/
def isForked (fields : Document.Fields) : Bool :=
  Fields.contains "execution_mode" fields && Fields.contains "executionMode" fields

/-- The document can be read, as far as the check leaves it open. -/
def fits (document : Value) : Bool :=
  !isForked (document.object?.getD []) && (visited document).all Survey.fits

theorem ids_eq_flatMap (p : Plan) : p.ids = p.allSteps.flatMap Step.ownIds := by
  rw [ids, ← map_step_places, List.flatMap_map]

/-- The version of a document that passes is read. -/
theorem exists_version {fields : Document.Fields} (h : Checked fields) :
    ∃ version, required version? fields "version" = some version := by
  rcases h.version with ⟨s, hs, -⟩ | ⟨n, hn⟩
  · exact ⟨s, (required_of_get? hs).trans rfl⟩
  · exact ⟨n.text, (required_of_get? hn).trans rfl⟩

/-- The mode is read, unless it goes by two names. -/
theorem exists_mode {fields : Document.Fields} (h : Checked fields) (hfits : isForked fields = false) :
    ∃ mode, aliased .dag Mode.ofValue? fields "execution_mode" "executionMode" = some mode := by
  have hread : ∀ v, (Fields.get? "execution_mode" fields).or (Fields.get? "executionMode" fields)
      = some v → ∃ mode, Mode.ofValue? v = some mode := by
    intro v hv
    obtain ⟨s, rfl, hs⟩ := h.mode v hv
    simp only [modeNames, List.mem_cons, List.not_mem_nil, or_false] at hs
    rcases hs with rfl | rfl | rfl
    · exact ⟨.sequential, rfl⟩
    · exact ⟨.dag, rfl⟩
    · exact ⟨.graph, rfl⟩
  unfold aliased
  split
  · rename_i hmode hother
    simp [isForked, Fields.contains, hmode, hother] at hfits
  · rename_i v hmode hother
    exact hread v (by rw [hmode, Option.some_or])
  · rename_i v hmode hother
    exact hread v (by rw [hmode, hother, Option.none_or])
  · exact ⟨.dag, rfl⟩

/-- A mode that is read does not go by two names. -/
theorem isForked_of_aliased {fields : Document.Fields} {mode : Mode}
    (h : aliased .dag Mode.ofValue? fields "execution_mode" "executionMode" = some mode) :
    isForked fields = false := by
  unfold aliased at h
  split at h
  · cases h
  · rename_i hmode hother
    simp [isForked, Fields.contains, hother]
  · rename_i hmode hother
    simp [isForked, Fields.contains, hmode]
  · rename_i hmode hother
    simp [isForked, Fields.contains, hmode]

/-- A document that passes and fits is read as a plan with its steps and its ids. -/
theorem exists_follows {fields : Document.Fields} (h : Checked fields)
    (hfits : fits (.object fields) = true) :
    ∃ p, ofValue? (.object fields) = some p
      ∧ p.allSteps.map Step.heading = (visited (.object fields)).map Survey.heading
      ∧ p.ids = (surveyed (.object fields)).ids := by
  rw [fits, Bool.and_eq_true, Bool.not_eq_true', List.all_eq_true] at hfits
  obtain ⟨hmode, hall⟩ := hfits
  obtain ⟨version, hversion⟩ := exists_version h
  obtain ⟨mode, hmode⟩ := exists_mode h hmode
  obtain ⟨items, hitems, -⟩ := h.steps
  have hat : Survey.itemsAt "steps" fields = items := Survey.itemsAt_of_get? hitems
  have hvisited : visited (.object fields) = items.flatMap Survey.visited := by
    rw [visited, Value.object?, Option.getD_some, hat]
  have hread : ∀ v ∈ items, ∃ s, Step.ofValue? v = some s ∧ Survey.Follows s v
      ∧ s.nested.flatMap Step.ownIds = (Survey.visited v).flatMap Survey.ownIds := by
    intro v hv
    refine Survey.exists_follows (h.accepts v (hat ▸ hv)) fun inner hinner => hall inner ?_
    rw [hvisited]
    exact List.mem_flatMap.2 ⟨v, hv, hinner⟩
  obtain ⟨steps, hsteps⟩ := Step.exists_readAt hitems fun v hv =>
    (hread v hv).imp fun _ hs => hs.1
  have hparts : ∀ v ∈ items, ∀ s, Step.ofValue? v = some s → Survey.Follows s v
      ∧ s.nested.flatMap Step.ownIds = (Survey.visited v).flatMap Survey.ownIds := by
    intro v hv s hs
    obtain ⟨t, ht, hparts⟩ := hread v hv
    rwa [Option.some.inj (hs.symm.trans ht)]
  -- steps and items stand in the same order, so that what holds part by part holds of the whole
  have hforall := hat ▸ hsteps.forall₂_itemsAt
  refine ⟨⟨version, mode, steps⟩, ofValue?_object_eq_some.2 ⟨hversion, hmode, hsteps⟩, ?_, ?_⟩
  · rw [allSteps, Step.nestedList_eq_flatMap, hvisited, List.map_flatMap, List.map_flatMap]
    exact flatMap_eq_of_parts_eq hforall fun v hv s hs => (hparts v hv s hs).1
  · rw [ids_eq_flatMap, allSteps, Step.nestedList_eq_flatMap, surveyed, Value.object?,
      Option.getD_some, hat,
      Survey.ids_surveySteps fun v _ path => Survey.ids_surveyStep path [] v, List.flatMap_assoc,
      List.flatMap_assoc]
    exact flatMap_eq_of_parts_eq hforall fun v hv s hs => (hparts v hv s hs).2

/-- A plan that has all steps of the walk was read from a document that fits. -/
theorem fits_of_follows {fields : Document.Fields} (h : Checked fields) {p : Plan}
    (hp : ofValue? (.object fields) = some p)
    (hfollows : p.allSteps.map Step.heading = (visited (.object fields)).map Survey.heading) :
    fits (.object fields) = true := by
  obtain ⟨-, hmode, hsteps⟩ := ofValue?_object_eq_some.1 hp
  rw [visited, Value.object?, Option.getD_some, allSteps, Step.nestedList_eq_flatMap,
    List.map_flatMap, List.map_flatMap] at hfollows
  have hparts := parts_eq_of_flatMap_eq hsteps.forall₂_itemsAt
    (fun v hv s hs => Survey.length_headings_le (h.accepts v hv) hs) hfollows
  rw [fits, Bool.and_eq_true, Bool.not_eq_true', List.all_eq_true]
  refine ⟨isForked_of_aliased hmode, fun inner hinner => ?_⟩
  obtain ⟨v, hv, hinner⟩ := List.mem_flatMap.1 hinner
  obtain ⟨s, -, hs, hpart⟩ := exists_right_of_mem hparts hv
  exact Survey.fits_of_follows (h.accepts v hv) hs hpart inner hinner

/-- A document that passes the check is read as a plan of just the steps that the check went
through, with their ids, their kinds and all ids that came up, if and only if it fits. -/
theorem convert_follows_iff {document : Value} (h : check document = .ok ()) :
    (∃ p, convert document = .ok p
        ∧ p.allSteps.map Step.heading = (visited document).map Survey.heading
        ∧ p.ids = (surveyed document).ids)
      ↔ fits document = true := by
  obtain ⟨fields, rfl, hchecked⟩ := exists_object_of_check h
  simp only [convert_eq_ok]
  constructor
  · rintro ⟨p, hp, hfollows, -⟩
    exact fits_of_follows hchecked hp hfollows
  · exact exists_follows hchecked

/-- A document with groups inside groups, that uses the second names of fields. -/
def aliasedDocument : Value :=
  .ofFields [
    ("version", .ofWord 1),
    ("executionMode", .string "graph"),
    ("steps", .array [
      .ofFields [
        ("id", .string "p"),
        ("type", .string "parallel"),
        ("steps", .array [
          .ofFields [
            ("id", .string "c"),
            ("type", .string "conditional"),
            ("condition", .string "true"),
            ("then", .array [.ofFields [("id", .string "t"), ("tool", .string "echo")]]),
            ("else", .array [
              .ofFields [
                ("id", .string "r"),
                ("type", .string "reduce"),
                ("input", .string "xs"),
                ("as", .string "x"),
                ("reducer", .ofFields [("id", .string "i"), ("tool", .string "echo")]),
                ("output", .string "o")]])]])],
      .ofFields [
        ("id", .string "f"),
        ("type", .string "final"),
        ("depends_on", .array [.string "i"])]])]

/-- A document that uses the second names of fields, each by itself. -/
theorem convert_follows_iff_aliasedDocument :
    check aliasedDocument = .ok () ∧ ∃ p, convert aliasedDocument = .ok p
      ∧ p.allSteps.map Step.heading = (visited aliasedDocument).map Survey.heading
      ∧ p.ids = (surveyed aliasedDocument).ids := by
  have hcheck : check aliasedDocument = .ok () := by cbv
  have hfits : fits aliasedDocument = true := by cbv
  exact ⟨hcheck, (convert_follows_iff hcheck).2 hfits⟩

/-- A group that names a tool, and in it a loop whose body has an id that is null. -/
def nullIdInGroup : Value :=
  .ofFields [
    ("version", .string "1"),
    ("steps", .array [
      .ofFields [
        ("id", .string "p"),
        ("type", .string "parallel"),
        ("tool", .string "echo"),
        ("steps", .array [
          .ofFields [
            ("id", .string "l"),
            ("type", .string "loop"),
            ("over", .array [.null]),
            ("as", .string "x"),
            ("step", .ofFields [("id", .null), ("tool", .string "echo")])]])]])]

/-- The document passes the check as a group with a loop, and is read as a call of the tool. -/
theorem nullIdInGroup_not_followed :
    check nullIdInGroup = .ok ()
      ∧ (visited nullIdInGroup).map Survey.heading
        = [(some "p", some "parallel"), (some "l", some "loop")]
      ∧ ∃ p, convert nullIdInGroup = .ok p
        ∧ p.allSteps.map Step.heading = [(some "p", some "tool")] := by
  have hcheck : check nullIdInGroup = .ok () := by cbv
  have hvisited : (visited nullIdInGroup).map Survey.heading
      = [(some "p", some "parallel"), (some "l", some "loop")] := by cbv
  have hread : (convert nullIdInGroup).toOption.map (fun p => p.allSteps.map Step.heading)
      = some [(some "p", some "tool")] := by cbv
  refine ⟨hcheck, hvisited, ?_⟩
  cases hp : convert nullIdInGroup with
  | error e =>
    rw [hp] at hread
    cases hread
  | ok p =>
    rw [hp] at hread
    exact ⟨p, rfl, Option.some.inj hread⟩

end Plan

end Wavefront
