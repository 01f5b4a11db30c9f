/-
What the steps of a plan come to in a graph, read off the plan.

The expansion of a plan walks through the steps and puts nodes, exits and names together as it goes.
Here the same is said of every step by itself. The steps that have to do with the graph are those
outside of all conditionals: each makes some nodes of its own (`Step.made`), ends with some nodes
(`Step.exits`), which need not be its own, and is known by some ids (`Step.aliases`). Only the items
of a loop depend on the context.

`Step.nodes` are all nodes of a step with those of the steps inside it, and the first thing that is
proved is that each of them is made by one of these steps.
-/
import Wavefront.Proofs.Plan.Sound

set_option autoImplicit false

namespace Wavefront

/-- The items of a loop, if they are already there. -/
def LoopStep.known? (s : LoopStep) (context : Value) : Option (List Value) :=
  match context.deref s.items with
  | some (.array items) => some items
  | _ => none

/-- The ids of the nodes for the items. -/
def LoopStep.iterationIds (s : LoopStep) (items : List Value) : List String :=
  items.zipIdx.map fun item => iterationId s.id item.2

namespace Step

mutual

/-- The nodes that a step ends with. -/
def exits (context : Value) : Step → List String
  | loop s =>
      match s.known? context with
      | some _ => [gatheredId s.id]
      | none => [s.id]
  | parallel shell steps =>
      match shell.output with
      | some _ => [gatheredId shell.id]
      | none => exitsAll context steps
  | step => [step.id]

/-- The nodes that steps end with. -/
def exitsAll (context : Value) : List Step → List String
  | [] => []
  | step :: steps => exits context step ++ exitsAll context steps

end

mutual

/-- The nodes of a step, with those of the steps inside it. A conditional is one node. -/
def nodes (context : Value) : Step → List String
  | loop s =>
      match s.known? context with
      | some items => s.iterationIds items ++ [gatheredId s.id]
      | none => [s.id]
  | parallel shell steps =>
      match shell.output with
      | some _ => nodesAll context steps ++ [gatheredId shell.id]
      | none => nodesAll context steps
  | step => [step.id]

/-- The nodes of steps. -/
def nodesAll (context : Value) : List Step → List String
  | [] => []
  | step :: steps => nodes context step ++ nodesAll context steps

end

/-- The nodes that a step makes itself, each with what it waits for as a node. -/
def made (context : Value) : Step → List (String × List String)
  | loop s =>
      match s.known? context with
      | some items =>
          (s.iterationIds items).map (fun id => (id, [])) ++ [(gatheredId s.id, s.iterationIds items)]
      | none => [(s.id, [])]
  | parallel shell steps =>
      match shell.output with
      | some _ => [(gatheredId shell.id, exitsAll context steps)]
      | none => []
  | step => [(step.id, [])]

/-- The ids of the nodes that a step makes itself. -/
def madeIds (context : Value) (s : Step) : List String := (s.made context).map Prod.fst

/-- The ids that a step is known by. A conditional is also known by the ids of what is inside it. -/
def aliases : Step → List String
  | conditional shell _ yes no => shell.id :: (nestedList yes ++ nestedList no).flatMap innerIds
  | step => step.ownIds

/-- What the steps inside a conditional wait for outside of it. -/
def lifted : Step → List String
  | conditional _ _ yes no =>
      ((nestedList yes ++ nestedList no).flatMap dependsOn).filter fun id =>
        id ∉ (nestedList yes ++ nestedList no).flatMap innerIds
  | _ => []

/-- Steps side by side end with what each of them ends with. -/
theorem exitsAll_eq_flatMap (context : Value) (steps : List Step) :
    exitsAll context steps = steps.flatMap (exits context) := by
  induction steps with
  | nil => rw [exitsAll, List.flatMap_nil]
  | cons s steps ih => rw [exitsAll, ih, List.flatMap_cons]

/-- Steps side by side have the nodes of each of them. -/
theorem nodesAll_eq_flatMap (context : Value) (steps : List Step) :
    nodesAll context steps = steps.flatMap (nodes context) := by
  induction steps with
  | nil => rw [nodesAll, List.flatMap_nil]
  | cons s steps ih => rw [nodesAll, ih, List.flatMap_cons]

/-- The steps inside a parallel step; those inside a conditional have no nodes in the graph. -/
def group : Step → List Step
  | parallel _ steps => steps
  | _ => []

/-- The members of a group are inside it. -/
theorem group_subset_children (s : Step) : s.group ⊆ s.children := by
  cases s with
  | parallel shell steps => exact List.Subset.refl _
  | conditional shell condition yes no => exact List.nil_subset _
  | tool s => exact List.nil_subset _
  | loop s => exact List.nil_subset _
  | reduce s => exact List.nil_subset _
  | final s => exact List.nil_subset _

/-- The nodes of a step are those it makes and those of the steps in its group. -/
theorem mem_nodes {context : Value} {s : Step} {n : String} :
    n ∈ s.nodes context ↔ n ∈ s.madeIds context ∨ ∃ t ∈ s.group, n ∈ t.nodes context := by
  cases s with
  | loop s =>
    rw [nodes, madeIds, made]
    cases s.known? context with
    | none => simp [group]
    | some items => simp [group, Function.comp_def]
  | parallel shell steps =>
    rw [nodes, madeIds, made, nodesAll_eq_flatMap]
    cases shell.output with
    | none => simp [group]
    | some output => simp [group, or_comm]
  | conditional shell condition yes no => simp [nodes, madeIds, made, group]
  | tool s => simp [nodes, madeIds, made, group]
  | reduce s => simp [nodes, madeIds, made, group]
  | final s => simp [nodes, madeIds, made, group]

/-- A step ends with nodes of its own or of the steps in its group. -/
theorem exits_subset_nodes (context : Value) (s : Step) : s.exits context ⊆ s.nodes context := by
  induction s using childrenInduction with
  | h s ih =>
    cases s with
    | loop s =>
      rw [exits, nodes]
      cases s.known? context with
      | none => exact List.Subset.refl _
      | some items => exact List.subset_append_right _ _
    | parallel shell steps =>
      rw [exits, nodes, exitsAll_eq_flatMap, nodesAll_eq_flatMap]
      cases shell.output with
      | none =>
        intro n hn
        obtain ⟨t, ht, hn⟩ := List.mem_flatMap.1 hn
        exact List.mem_flatMap.2 ⟨t, ht, ih t ht hn⟩
      | some output => exact List.subset_append_right _ _
    | conditional shell condition yes no => simp [exits, nodes]
    | tool s => simp [exits, nodes]
    | reduce s => simp [exits, nodes]
    | final s => simp [exits, nodes]

/-- A conditional ends with its one node. -/
theorem exits_of_conditional {context : Value} {s : Step} (h : s.kind = "conditional") :
    s.exits context = [s.id] := by
  obtain ⟨shell, condition, yes, no, rfl⟩ := exists_eq_conditional h
  rfl

/-- A conditional makes one node, which gathers nothing. -/
theorem made_of_conditional {context : Value} {s : Step} (h : s.kind = "conditional") :
    s.made context = [(s.id, [])] := by
  obtain ⟨shell, condition, yes, no, rfl⟩ := exists_eq_conditional h
  rfl

/-- The node that a conditional makes has its id. -/
theorem madeIds_of_conditional {context : Value} {s : Step} (h : s.kind = "conditional") :
    s.madeIds context = [s.id] := by
  rw [madeIds, made_of_conditional h]
  rfl

/-- A conditional is one of the steps that make a node of their own id. -/
theorem id_mem_madeIds_of_conditional {context : Value} {s : Step} (h : s.kind = "conditional") :
    s.id ∈ s.madeIds context := by
  rw [madeIds_of_conditional h]
  exact List.mem_singleton_self _

/-- A group makes at most the node that gathers what is inside it. -/
theorem mem_made_parallel {context : Value} {shell : Shell} {steps : List Step}
    {m : String × List String} :
    m ∈ (parallel shell steps).made context ↔ ∃ output, shell.output = some output
      ∧ m = (gatheredId shell.id, exitsAll context steps) := by
  rw [made]
  cases shell.output with
  | none => simp
  | some output => simp

/-- What the nodes of a step wait for as nodes: the nodes for the items of a loop wait for nothing,
and a gathering node waits for those or for what the steps in the group end with. -/
theorem mem_of_mem_made {context : Value} {s : Step} {m : String × List String}
    (hm : m ∈ s.made context) {d : String} (hd : d ∈ m.2) :
    (d, []) ∈ s.made context ∨ ∃ t ∈ s.group, d ∈ t.exits context := by
  cases s with
  | loop s =>
    rw [made] at hm ⊢
    cases hknown : s.known? context with
    | none => simp_all
    | some items =>
      simp only [hknown, List.mem_append, List.mem_map, List.mem_singleton] at hm ⊢
      rcases hm with ⟨id, hid, rfl⟩ | rfl
      · exact absurd hd List.not_mem_nil
      · exact .inl (.inl ⟨d, hd, rfl⟩)
  | parallel shell steps =>
    obtain ⟨output, -, rfl⟩ := mem_made_parallel.1 hm
    rw [exitsAll_eq_flatMap] at hd
    exact .inr (List.mem_flatMap.1 hd)
  | conditional shell condition yes no => simp_all [made]
  | tool s => simp_all [made]
  | reduce s => simp_all [made]
  | final s => simp_all [made]

/-- What gathers in a group waits for all that the steps in the group end with. -/
theorem exits_subset_of_mem_made {context : Value} {s t : Step} (ht : t ∈ s.group)
    {m : String × List String} (hm : m ∈ s.made context) : t.exits context ⊆ m.2 := by
  cases s with
  | parallel shell steps =>
    obtain ⟨output, -, rfl⟩ := mem_made_parallel.1 hm
    rw [exitsAll_eq_flatMap]
    exact fun x hx => List.mem_flatMap.2 ⟨t, ht, hx⟩
  | loop s => exact absurd ht List.not_mem_nil
  | conditional shell condition yes no => exact absurd ht List.not_mem_nil
  | tool s => exact absurd ht List.not_mem_nil
  | reduce s => exact absurd ht List.not_mem_nil
  | final s => exact absurd ht List.not_mem_nil

/-- Only a group may make no node. -/
theorem exists_mem_madeIds {context : Value} {s : Step} (h : s.kind ≠ "parallel") :
    ∃ n, n ∈ s.madeIds context := by
  cases s with
  | loop s =>
    rw [madeIds, made]
    cases s.known? context with
    | none => exact ⟨s.id, List.mem_singleton_self _⟩
    | some items => exact ⟨gatheredId s.id, by simp⟩
  | parallel shell steps => exact absurd rfl h
  | conditional shell condition yes no => exact ⟨shell.id, List.mem_singleton_self _⟩
  | tool s => exact ⟨s.id, List.mem_singleton_self _⟩
  | reduce s => exact ⟨s.id, List.mem_singleton_self _⟩
  | final s => exact ⟨s.id, List.mem_singleton_self _⟩

/-- What a step makes, and what the steps in its group end with, it ends with itself or is gathered
by what it ends with. -/
theorem mem_exits_or_gathered {context : Value} {s : Step} {n : String}
    (hn : n ∈ s.madeIds context ∨ ∃ t ∈ s.group, n ∈ t.exits context) :
    n ∈ s.exits context
      ∨ ∃ x ∈ s.exits context, ∃ deps, (x, deps) ∈ s.made context ∧ n ∈ deps := by
  -- what is not an exit is gathered by one: the nodes of a loop for its items, and the exits of the
  -- members of a group
  cases s with
  | loop s =>
    have hmade : n ∈ madeIds context (.loop s) := by
      rcases hn with hn | ⟨t, ht, -⟩
      · exact hn
      · exact absurd ht List.not_mem_nil
    rw [madeIds, made] at hmade
    rw [exits, made]
    cases hknown : s.known? context with
    | none => simpa [hknown] using hmade
    | some items =>
      rw [hknown] at hmade
      simp only [List.map_append, List.map_map, List.mem_append] at hmade
      rcases hmade with hitem | hgathered
      · refine .inr ⟨gatheredId s.id, List.mem_singleton_self _, s.iterationIds items, ?_, ?_⟩
        · exact List.mem_append_right _ (List.mem_singleton_self _)
        · simpa using hitem
      · exact .inl hgathered
  | parallel shell steps =>
    simp only [madeIds, made, group, exits, exitsAll_eq_flatMap] at hn ⊢
    cases houtput : shell.output with
    | none =>
      simp only [houtput, List.map_nil, List.not_mem_nil, false_or] at hn
      exact .inl (List.mem_flatMap.2 hn)
    | some output =>
      simp only [houtput, List.map_cons, List.map_nil] at hn
      rcases hn with hn | hn
      · exact .inl hn
      · exact .inr ⟨gatheredId shell.id, List.mem_singleton_self _, steps.flatMap (exits context),
          List.mem_singleton_self _, List.mem_flatMap.2 hn⟩
  | conditional shell condition yes no => simpa [madeIds, made, group, exits] using hn
  | tool s => simpa [madeIds, made, group, exits] using hn
  | reduce s => simpa [madeIds, made, group, exits] using hn
  | final s => simpa [madeIds, made, group, exits] using hn

/-! ## Ids inside a conditional -/

/-- The ids that a step brings with it inside a conditional belong to it. -/
theorem innerIds_subset (s : Step) : ∀ a ∈ s.innerIds, a ≠ "" → a ∈ s.ownIds := by
  intro a ha hne
  cases s with
  | loop s =>
    rcases List.mem_cons.1 ha with rfl | ha
    · exact id_mem_ownIds (.loop s)
    · obtain rfl : a = s.body.id := List.mem_singleton.1 ha
      exact List.mem_cons_of_mem _ (List.mem_filter.2 ⟨List.mem_singleton_self _, by simpa using hne⟩)
  | tool s => exact List.mem_singleton.1 ha ▸ id_mem_ownIds _
  | parallel shell steps => exact List.mem_singleton.1 ha ▸ id_mem_ownIds _
  | reduce s => exact List.mem_singleton.1 ha ▸ id_mem_ownIds _
  | conditional shell condition yes no => exact List.mem_singleton.1 ha ▸ id_mem_ownIds _
  | final s => exact List.mem_singleton.1 ha ▸ id_mem_ownIds _

/-- A step brings its own id with it. -/
theorem id_mem_innerIds (s : Step) : s.id ∈ s.innerIds := by
  cases s with
  | loop s => exact List.mem_cons_self
  | tool s => exact List.mem_singleton_self _
  | parallel shell steps => exact List.mem_singleton_self _
  | reduce s => exact List.mem_singleton_self _
  | conditional shell condition yes no => exact List.mem_singleton_self _
  | final s => exact List.mem_singleton_self _

/-- A reduce step brings its own id and no other: the id of an inline reducer is left out. -/
theorem innerIds_of_reduce {s : Step} (h : s.kind = "reduce") : s.innerIds = [s.id] := by
  cases s with
  | reduce s => rfl
  | tool s => simp [kind] at h
  | loop s => simp [kind] at h
  | parallel shell steps => simp [kind] at h
  | conditional shell condition yes no => simp [kind] at h
  | final s => simp [kind] at h

/-- Of what belongs to a step only the id of an inline reducer is not among the ids that the step
brings with it. -/
theorem mem_innerIds {s : Step} {a : String} (ha : a ∈ s.ownIds) :
    a ∈ s.innerIds ∨ s.kind = "reduce" ∧ a ∈ s.bodyIds := by
  rcases List.mem_cons.1 ha with rfl | hb
  · exact .inl s.id_mem_innerIds
  · cases s with
    | loop s => exact .inl (List.mem_cons_of_mem _ (List.mem_of_mem_filter hb))
    | reduce s => exact .inr ⟨rfl, hb⟩
    | tool s => exact absurd hb List.not_mem_nil
    | parallel shell steps => exact absurd hb List.not_mem_nil
    | conditional shell condition yes no => exact absurd hb List.not_mem_nil
    | final s => exact absurd hb List.not_mem_nil

/-- Outside of conditionals a step is known by the ids that belong to it. -/
theorem aliases_eq_ownIds {s : Step} (h : s.kind ≠ "conditional") : s.aliases = s.ownIds := by
  cases s with
  | conditional shell condition yes no => exact absurd rfl h
  | tool s => rfl
  | loop s => rfl
  | parallel shell steps => rfl
  | reduce s => rfl
  | final s => rfl

/-- A step is known by the ids that belong to it. -/
theorem ownIds_subset_aliases (s : Step) : s.ownIds ⊆ s.aliases := by
  cases s with
  | conditional shell condition yes no =>
    intro a ha
    rcases List.mem_cons.1 ha with rfl | ha
    · exact List.mem_cons_self
    · exact absurd ha List.not_mem_nil
  | tool s => exact List.Subset.refl _
  | loop s => exact List.Subset.refl _
  | parallel shell steps => exact List.Subset.refl _
  | reduce s => exact List.Subset.refl _
  | final s => exact List.Subset.refl _

/-- The steps inside a conditional are those of both branches. -/
theorem flatMap_nested_conditional (shell : Shell) (condition : String) (yes no : List Step) :
    (conditional shell condition yes no).children.flatMap nested
      = nestedList yes ++ nestedList no := by
  rw [children, List.flatMap_append, nestedList_eq_flatMap, nestedList_eq_flatMap]

/-- A conditional is known by its id and by what the steps inside bring with them. -/
theorem aliases_eq_of_conditional {s : Step} (h : s.kind = "conditional") :
    s.aliases = s.id :: (s.children.flatMap nested).flatMap innerIds := by
  obtain ⟨shell, condition, yes, no, rfl⟩ := exists_eq_conditional h
  rw [flatMap_nested_conditional, aliases, id]

/-- Nothing is lifted outside of conditionals. -/
theorem lifted_eq_nil {s : Step} (h : s.kind ≠ "conditional") : s.lifted = [] := by
  cases s with
  | conditional shell condition yes no => exact absurd rfl h
  | tool s => rfl
  | loop s => rfl
  | parallel shell steps => rfl
  | reduce s => rfl
  | final s => rfl

/-- What is lifted is what the steps inside wait for, less what they bring with them. -/
theorem lifted_eq_of_conditional {s : Step} (h : s.kind = "conditional") :
    s.lifted = ((s.children.flatMap nested).flatMap dependsOn).filter fun id =>
      id ∉ (s.children.flatMap nested).flatMap innerIds := by
  obtain ⟨shell, condition, yes, no, rfl⟩ := exists_eq_conditional h
  rw [flatMap_nested_conditional, lifted]

/-- Only parallel steps are groups. -/
theorem group_eq_nil {s : Step} (h : s.kind ≠ "parallel") : s.group = [] := by
  cases s with
  | parallel shell steps => exact absurd rfl h
  | tool s => rfl
  | loop s => rfl
  | conditional shell condition yes no => rfl
  | reduce s => rfl
  | final s => rfl

/-- Outside of conditionals the members of a group are all that is inside it. -/
theorem group_eq_children {s : Step} (h : s.kind ≠ "conditional") : s.group = s.children := by
  cases s with
  | conditional shell condition yes no => exact absurd rfl h
  | tool s => rfl
  | loop s => rfl
  | parallel shell steps => rfl
  | reduce s => rfl
  | final s => rfl

end Step

end Wavefront
