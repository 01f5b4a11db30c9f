/-
Tools of steps: which look-ups an expansion makes, and that later ones find what earlier ones found.

Outside of conditionals tools are looked up step by step, as the expansion goes down into groups;
what is inside a conditional is first put into one flat list. Both come to the same. Steps are
expanded if and only if every one of them and every step inside them, at any depth, calls a tool
that is registered (`Step.exists_expandAll_iff`). Neither the context nor what is inherited comes up
in that condition, so what has been expanded once is expanded always, and every part of it as well.

A registry only grows. A later tool may take the place of an earlier one, but an id that was there
stays.
-/
import Wavefront.Proofs.Plan.Expansion
import Wavefront.Proofs.Value.Fields

set_option autoImplicit false

namespace Wavefront

/-! ## Registries that grow -/

namespace Registry

/-- Every id of the registry is one of the other. -/
def Extends (r r' : Registry) : Prop := ∀ id, r.contains id = true → r'.contains id = true

/-- Registers several tools, one after the other. -/
def registerAll (r : Registry) (more : List Tool) : Registry := more.foldl register r

variable {r : Registry}

theorem contains_iff {id : String} : r.contains id = true ↔ ∃ tool, r.get? id = some tool := by
  rw [contains, Option.isSome_iff_exists]

/-- Registering keeps every id, and perhaps replaces its tool. -/
theorem extends_register (r : Registry) (tool : Tool) : r.Extends (r.register tool) := by
  intro id h
  obtain ⟨found, hfound⟩ := contains_iff.1 h
  apply contains_iff.2
  rw [register, get?, Fields.get?_insert]
  by_cases hid : tool.id = id
  · exact ⟨tool, if_pos hid⟩
  · exact ⟨found, (if_neg hid).trans hfound⟩

/-- Registering several tools keeps every id. -/
theorem extends_registerAll (r : Registry) (more : List Tool) : r.Extends (r.registerAll more) := by
  induction more generalizing r with
  | nil => exact fun _ h => h
  | cons tool more ih =>
    intro id h
    exact ih (r.register tool) id (extends_register r tool id h)

/-- Looking up a tool succeeds if it is registered, whatever the step that names it. -/
theorem exists_require_iff (id step : String) :
    (∃ tool, r.require id step = .ok tool) ↔ r.contains id = true := by
  rw [contains_iff, require]
  cases r.get? id with
  | none => simp
  | some tool => simp

end Registry

/-! ## Steps whose tools are registered -/

namespace Step

/-- The tool that the step calls, if it calls one, is registered. -/
def Equipped (tools : Registry) (s : Step) : Prop :=
  ∀ id, s.tool? = some id → tools.contains id = true

variable {tools : Registry}

theorem Equipped.mono {more : Registry} {s : Step} (h : s.Equipped tools) (hmore : tools.Extends more) :
    s.Equipped more := fun id hid => hmore id (h id hid)

/-- A step that calls a tool is equipped if the tool is there. -/
theorem equipped_iff_of_tool? {s : Step} {id : String} (h : s.tool? = some id) :
    s.Equipped tools ↔ tools.contains id = true := by
  constructor
  · exact fun hs => hs id h
  · intro hid other hother
    obtain rfl : id = other := Option.some.inj (h.symm.trans hother)
    exact hid

theorem equipped_of_tool?_eq_none {s : Step} (h : s.tool? = none) : s.Equipped tools := by
  intro id hid
  cases h.symm.trans hid

end Step

/-- A look-up of several tools succeeds if each of them is there. -/
theorem requireTools_eq_ok_iff {tools : Registry} {steps : List Step} :
    requireTools tools steps = .ok () ↔ ∀ s ∈ steps, s.Equipped tools := by
  induction steps with
  | nil => exact iff_of_true rfl fun _ hs => absurd hs List.not_mem_nil
  | cons s steps ih =>
    rw [requireTools, List.forall_mem_cons, ← ih]
    cases htool : s.tool? with
    | none => exact (and_iff_right (Step.equipped_of_tool?_eq_none htool)).symm
    | some id =>
      rw [Step.equipped_iff_of_tool? htool, ← Registry.exists_require_iff id s.id]
      constructor
      · intro h
        obtain ⟨tool, hfound, hrest⟩ := bind_eq_ok_iff.1 h
        exact ⟨⟨tool, hfound⟩, hrest⟩
      · rintro ⟨⟨tool, hfound⟩, hrest⟩
        exact bind_eq_ok_iff.2 ⟨tool, hfound, hrest⟩

/-! ## Expansions -/

namespace Step

variable {tools : Registry} {context : Value}

/-- A step without steps inside is expanded when the tool that it calls is found. -/
theorem exists_require_iff_of_alone {s : Step} {id : String} (htool : s.tool? = some id)
    (hchildren : s.children = []) :
    (∃ tool, tools.require id s.id = .ok tool) ↔ ∀ t ∈ s.nested, t.Equipped tools := by
  rw [Registry.exists_require_iff, nested_eq, hchildren, List.flatMap_nil,
    List.forall_mem_singleton, equipped_iff_of_tool? htool]

/-- Of a step that calls nothing only the steps inside it count. -/
theorem forall_equipped_nested_iff {s : Step} (htool : s.tool? = none) :
    (∀ t ∈ s.nested, t.Equipped tools)
      ↔ ∀ t ∈ s.children.flatMap nested, t.Equipped tools := by
  rw [nested_eq, List.forall_mem_cons]
  exact and_iff_right (equipped_of_tool?_eq_none htool)

/-- What holds of each step holds of a list of them. -/
theorem exists_expandAll_iff_of_forall {steps : List Step} {inherited : List String}
    (h : ∀ s ∈ steps, (∃ e, expand tools context inherited s = .ok e)
      ↔ ∀ t ∈ s.nested, t.Equipped tools) :
    (∃ e, expandAll tools context inherited steps = .ok e)
      ↔ ∀ t ∈ steps.flatMap nested, t.Equipped tools := by
  induction steps with
  | nil =>
    rw [expandAll]
    exact iff_of_true ⟨_, rfl⟩ fun _ ht => absurd ht List.not_mem_nil
  | cons s steps ih =>
    rw [List.forall_mem_cons] at h
    rw [List.flatMap_cons, List.forall_mem_append, ← h.1, ← ih h.2]
    constructor
    · rintro ⟨e, he⟩
      obtain ⟨first, rest, hfirst, hrest, -⟩ := expandAll_cons_eq_ok.1 he
      exact ⟨⟨first, hfirst⟩, ⟨rest, hrest⟩⟩
    · rintro ⟨⟨first, hfirst⟩, ⟨rest, hrest⟩⟩
      exact ⟨first ++ rest, expandAll_cons_eq_ok.2 ⟨first, rest, hfirst, hrest, rfl⟩⟩

/-- A step is expanded if and only if all tools are registered that it and the steps inside it
call. -/
theorem exists_expand_iff (s : Step) (inherited : List String) :
    (∃ e, expand tools context inherited s = .ok e) ↔ ∀ t ∈ s.nested, t.Equipped tools := by
  induction s using childrenInduction generalizing inherited with
  | h s ih =>
    cases s with
    | tool s =>
      rw [expand, exists_bind_pure_iff, ToolStep.expand, exists_bind_pure_iff]
      exact exists_require_iff_of_alone (s := .tool s) rfl rfl
    | final s =>
      rw [expand, exists_bind_pure_iff, FinalStep.expand, exists_bind_pure_iff]
      exact exists_require_iff_of_alone (s := .final s) rfl rfl
    | loop s =>
      rw [expand, exists_bind_pure_iff, LoopStep.expand, exists_bind_pure_iff]
      exact exists_require_iff_of_alone (s := .loop s) rfl rfl
    | reduce s =>
      rw [expand, exists_bind_pure_iff, ReduceStep.expand, exists_bind_pure_iff]
      exact exists_require_iff_of_alone (s := .reduce s) rfl rfl
    | parallel shell steps =>
      rw [expand, exists_bind_pure_iff, forall_equipped_nested_iff rfl]
      exact exists_expandAll_iff_of_forall fun t ht => ih t ht _
    | conditional shell condition yes no =>
      -- here the steps inside are only looked up
      rw [expand, exists_bind_pure_iff, Shell.expandConditional, exists_bind_pure_iff,
        forall_equipped_nested_iff rfl, children, List.flatMap_append, ← nestedList_eq_flatMap,
        ← nestedList_eq_flatMap, ← requireTools_eq_ok_iff]
      constructor
      · rintro ⟨u, h⟩
        exact h
      · intro h
        exact ⟨(), h⟩

/-- Steps are expanded if and only if all tools are registered that they and the steps inside them
call, whatever the context is and whatever they inherit. -/
theorem exists_expandAll_iff (steps : List Step) (inherited : List String) :
    (∃ e, expandAll tools context inherited steps = .ok e)
      ↔ ∀ t ∈ nestedList steps, t.Equipped tools := by
  rw [nestedList_eq_flatMap]
  exact exists_expandAll_iff_of_forall fun s _ => exists_expand_iff s inherited

end Step

/-! ## Plans -/

namespace Plan

/-- Every tool that a step of the plan calls, at any depth, is registered. -/
def Equipped (p : Plan) (tools : Registry) : Prop := ∀ s ∈ p.allSteps, s.Equipped tools

variable {p : Plan} {tools : Registry}

/-- A plan that was expanded has found all its tools. -/
theorem equipped_of_expand {context : Value} {g : Graph} (h : p.expand tools context = .ok g) :
    p.Equipped tools := by
  obtain ⟨e, he, -⟩ := bind_eq_ok_iff.1 h
  exact (Step.exists_expandAll_iff p.steps []).1 ⟨e, he⟩

theorem Equipped.mono {more : Registry} (h : p.Equipped tools) (hmore : tools.Extends more) :
    p.Equipped more := fun s hs => (h s hs).mono hmore

end Plan

end Wavefront
